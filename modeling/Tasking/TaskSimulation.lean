import Tasking.SimulationRules

/-! Creating, popping, running and finishing tasks, and waiting for futures. -/
namespace Tasking.Runtime
open Fallible Family TokenProtocol Custody WorkerTree Function

section Tasks

variable {cfg : Config} {ctx : Context} {w : ℕ} {n n' : Node} {t : Task} {x : Worker}

theorem Simulated.refl (pre : Pre cfg ctx w n) : Simulated cfg ctx w n n :=
  ⟨.refl, .refl, pre.loc, pre.net, pre.depends, fun _ _ _ some => some⟩

/-! ## Running a task -/

theorem tasks_held (held : x.pc.held = some t) :
    x.tasks w = (.ready w, t.tag) ::ₘ (place (.ready w) (tagsOf x.deque) +
      place (.running w) (tagsOf (x.frames.map Frame.task))) := by
  simp [Worker.tasks, held, tagsOf, place]

theorem tasks_frame {frame : Frame} {frames : List Frame} (stack : x.frames = frame :: frames) :
    x.tasks w = (.running w, frame.task.tag) ::ₘ
      (place (.ready w) (tagsOf (x.pc.held.toList ++ x.deque)) +
        place (.running w) (tagsOf (frames.map Frame.task))) := by
  have cons : place (.running w) (tagsOf (x.frames.map Frame.task)) =
      (.running w, frame.task.tag) ::ₘ place (.running w) (tagsOf (frames.map Frame.task)) := by
    rw [stack]
    rfl
  rw [Worker.tasks, cons, Multiset.add_cons]

/-- `run_task` on the task the worker holds. -/
theorem Pre.runs (pre : Pre cfg ctx w n) {ret : Ret} (busy : n.self.pc.isIdle = false)
    (hand : n.self.pc.hand = none) (held : n.self.pc.held = some t)
    (site : n.self.pc.site = some ret.site) :
    Simulated cfg ctx w n (runTask t ret n) := by
  have notWaiting := pre.not_waiting busy
  have awaiting : (runTask t ret n).self.loc.awaiting = n.self.loc.awaiting := by
    have before : n.self.loc.pc.site = some ret.site := site
    simp only [Local.awaiting, before]
    rfl
  refine ⟨?_, ?_, ?_, ?_, ?_, fun _ _ _ some => some⟩
  · refine tokens_unchanged ?_ (fun _ => rfl) ?_ rfl rfl
    · simp only [runTask, Worker.agent, busy]
      rfl
    · simp only [runTask, Worker.tokens, hand]
      rfl
  · have before : (n.custody cfg ctx w).tasks = (.ready w, t.tag) ::ₘ (n.net.tasks cfg +
        (place (.ready w) (tagsOf n.self.deque) +
          place (.running w) (tagsOf (n.self.frames.map Frame.task))) + ctx.tasks) := by
      simp only [Node.custody, tasks_held held, Multiset.add_cons, Multiset.cons_add]
    refine custodyStep_to (.start before) ?_ rfl (coe_concat _ _) rfl rfl rfl rfl
    have stack := @tasks_frame w (runTask t ret n).self ⟨t, ret⟩ n.self.frames rfl
    simp only [Node.custody, stack, Multiset.add_cons, Multiset.cons_add]
    rfl
  · have siteOk := pre.loc.site
    rw [show n.self.loc.pc.site = some ret.site from site] at siteOk
    refine Local.Plain.ok (.easy (by rfl)) (.inr (List.cons_ne_nil _ _))
      ⟨siteOk, pre.loc.stack⟩ notWaiting (pre.loc.not_inWait notWaiting) pre.loc.quiescent_master
      ?_ pre.loc.unfinished (awaiting ▸ pre.loc.awaiting)
    intro quiescent several
    have none := (pre.loc.quiescent_empty quiescent several).2.2
    exact absurd (held.symm.trans none) (by simp)
  · exact ⟨pre.net.running, pre.net.lossless, pre.net.requests, pre.net.slots⟩
  · exact pre.depends.goPlain notWaiting awaiting le_rfl fun _ _ => ⟨rfl, rfl, rfl⟩

/-! ## Finishing a task -/

theorem Ret.next_facts (ret : Ret) : ret.next.site = some ret.site ∧ ret.next.plain = true ∧
    ret.next.hand = none ∧ ret.next.held = none ∧ ret.next.foundNothing = false ∧
    (∀ cfg ID flag, ret.next.scanOk cfg ID flag) ∧ ∀ site i, ret.next ≠ .recvTask site i := by
  cases ret <;> simp [Ret.next, Pc.site, Ret.site, Pc.plain, Pc.isIdle, Pc.leaving, Pc.hand,
    Pc.held, Pc.foundNothing, Pc.scanOk]

/-- The innermost task returned, and maybe set its future. -/
theorem Pre.returns (pre : Pre cfg ctx w n) (here : n.self.pc = .user) {frame : Frame}
    {frames : List Frame} (stack : n.self.frames = frame :: frames) {futures : ℕ → LazyFuture}
    {a : Custody.State} (step : Custody.Step w (n.custody cfg ctx w) a)
    (after : a = { n.custody cfg ctx w with
      tasks := n.net.tasks cfg +
        (place (.ready w) (tagsOf (n.self.pc.held.toList ++ n.self.deque)) +
          place (.running w) (tagsOf (frames.map Frame.task))) + ctx.tasks
      finished := frame.task.id ::ₘ (n.net.finished : Multiset ℕ)
      futures := futures })
    (kept : ∀ f < n.net.nextFuture, (futures f).creator = (n.net.futures f).creator ∧
      (futures f).result = (n.net.futures f).result ∧
      (futures f).awaited = (n.net.futures f).awaited) :
    Simulated cfg ctx w n ⟨n.self.popFrame frame frames, { n.net with
      futures := futures, finished := n.net.finished ++ [frame.task.id] }⟩ := by
  obtain ⟨site, plain, hand, held, nothing, scan, notRecv⟩ := frame.ret.next_facts
  have busy : n.self.pc.isIdle = false := by rw [here]; rfl
  have notWaiting := pre.not_waiting busy
  have rets : n.self.loc.rets = frame.ret :: frames.map Frame.ret := by
    simp only [Worker.loc, stack, List.map_cons]
  have stackOk := pre.loc.stack
  rw [rets] at stackOk
  have awaiting : (n.self.popFrame frame frames).loc.awaiting = n.self.loc.awaiting := by
    have before : n.self.loc.pc = .user := here
    simp only [Local.awaiting, before, rets]
    simp only [Worker.popFrame, Worker.loc, site]
    rfl
  refine ⟨?_, ?_, ?_, ?_, ?_, fun _ _ _ some => some⟩
  · refine tokens_unchanged ?_ (fun _ => rfl) ?_ rfl rfl
    · simp only [Worker.popFrame, Worker.agent, busy, (Pc.plain_facts plain).1]
      rfl
    · simp only [Worker.popFrame, Worker.tokens, hand, here]
      rfl
  · subst after
    refine custodyStep_to step ?_ rfl rfl (coe_concat _ _) rfl rfl rfl
    have held' : n.self.pc.held = none := by rw [here]; rfl
    simp only [Node.custody, Worker.tasks, Worker.popFrame, held, held']
    rfl
  · refine Local.Plain.ok ⟨plain, ?_, scan _ _ _, ?_⟩ ?_ stackOk.2 notWaiting
      (pre.loc.not_inWait notWaiting) pre.loc.quiescent_master ?_ pre.loc.unfinished
      (awaiting ▸ pre.loc.awaiting)
    · intro found
      exact absurd (found.symm.trans nothing) (by simp)
    · intro site i receives
      exact absurd receives (notRecv site i)
    · have next : (n.self.popFrame frame frames).loc.pc.site = some frame.ret.site := site
      rw [next]
      exact stackOk.1
    · intro quiet several
      have empty := (pre.loc.quiescent_empty quiet several).2.1
      exact absurd (rets.symm.trans empty) (by simp)
  · exact ⟨pre.net.running, pre.net.lossless, pre.net.requests, pre.net.slots⟩
  · exact pre.depends.goPlain notWaiting awaiting le_rfl kept

theorem Pre.finishes (pre : Pre cfg ctx w n) (here : n.self.pc = .user) (value : Value) :
    Ensures Elsewhere (finish value n) (Simulated cfg ctx w n) := by
  unfold finish
  split
  · trivial
  · next frame frames stack =>
    have before : (n.custody cfg ctx w).tasks = (.running w, frame.task.tag) ::ₘ
        (n.net.tasks cfg + (place (.ready w) (tagsOf (n.self.pc.held.toList ++ n.self.deque)) +
          place (.running w) (tagsOf (frames.map Frame.task))) + ctx.tasks) := by
      simp only [Node.custody, tasks_frame stack, Multiset.add_cons, Multiset.cons_add]
    split
    · next future =>
      exact pre.returns here stack (.finish before future) rfl fun _ _ => ⟨rfl, rfl, rfl⟩
    · next f future =>
      have member : (Spot.running w, frame.task.tag) ∈ (n.custody cfg ctx w).tasks := by
        rw [before]
        exact Multiset.mem_cons_self _ _
      obtain ⟨known, unset, -⟩ := pre.kept.home _ member f future
      have writes := (pre.kept.sound f known).write unset value
      simp only [ensures_bind, ensures_await, ensures_pure]
      intro _
      cases wrote : (n.net.futures f).write value with
      | error stop =>
        cases stop with
        | disabled => trivial
        | fault which => exact (writes.tolerates wrote).elim
      | ok written =>
        obtain ⟨-, -, -, creator, result, awaited, -⟩ := writes.value wrote
        have kept : ∀ g < n.net.nextFuture,
            (update n.net.futures f written g).creator = (n.net.futures g).creator ∧
            (update n.net.futures f written g).result = (n.net.futures g).result ∧
            (update n.net.futures f written g).awaited = (n.net.futures g).awaited := by
          intro g _
          by_cases same : g = f
          · subst same
            simp only [update_self]
            exact ⟨creator, result, awaited⟩
          · simp only [update_of_ne same, and_self]
        exact pre.returns here stack (.finishFuture before future wrote) rfl kept

/-! ## Creating a task -/

theorem newTask_facts (ID : ℕ) (loop : Option (ℤ × ℤ)) (future : Bool) (n : Node) :
    Alike n.self (newTask ID loop future n).2.self ∧
      (∃ addr, (newTask ID loop future n).2.net = n.net.create addr future (.alloc ID)) ∧
      (newTask ID loop future n).1.tag =
        ⟨n.net.nextId, if future then some n.net.nextFuture else none⟩ := by
  obtain ⟨alike, addr, net⟩ := taskAlloc_alike n
  refine ⟨alike, ⟨addr, ?_⟩, ?_⟩
  · cases future with
    | false =>
      simp only [newTask, net]
      rfl
    | true =>
      simp only [newTask, net]
      rfl
  · simp only [newTask, Task.tag, net]

theorem push_ensures {ID : ℕ} (master : x.quiescent = true → ID = 0) :
    Ensures Elsewhere (push ID t x) fun x' =>
      x' = { x with deque := t :: x.deque, pc := .shareWork .push, quiescent := false } := by
  simp only [push, ensures_ite, ensures_bind, ensures_check, ensures_pure]
  refine ⟨fun quiescent => ⟨fun _ => trivial, fun other => absurd (master quiescent) other⟩, ?_⟩
  intro loud
  have loud : x.quiescent = false := by simpa using loud
  rw [← loud]

/-- A new task is pushed; the master is not quiescent any more. -/
theorem Pre.pushes (pre : Pre cfg ctx w n) (here : n.self.pc = .user) {addr : ℕ} {future : Bool}
    (tag : t.tag = ⟨n.net.nextId, if future then some n.net.nextFuture else none⟩) :
    Simulated cfg ctx w n ⟨{ n.self with
      deque := t :: n.self.deque, pc := .shareWork .push, quiescent := false },
      n.net.create addr future (.alloc w)⟩ := by
  have busy : n.self.pc.isIdle = false := by rw [here]; rfl
  have notWaiting := pre.not_waiting busy
  have held : n.self.pc.held = none := by rw [here]; rfl
  have hand : n.self.pc.hand = none := by rw [here]; rfl
  have before : n.self.loc.pc = .user := here
  have agent : Worker.agent { n.self with
      deque := t :: n.self.deque, pc := .shareWork .push, quiescent := false } = n.self.agent := by
    simp only [Worker.agent, busy]
    rfl
  have tokens : Worker.tokens w { n.self with
      deque := t :: n.self.deque, pc := .shareWork .push, quiescent := false } =
      n.self.tokens w := by
    simp only [Worker.tokens, hand]
    rfl
  have tasks : Worker.tasks w { n.self with
      deque := t :: n.self.deque, pc := .shareWork .push, quiescent := false } =
      (.ready w, t.tag) ::ₘ n.self.tasks w := by
    simp only [Worker.tasks, held]
    rfl
  have awaiting : Local.awaiting { n.self.loc with
      deque := t :: n.self.deque, pc := .shareWork .push, quiescent := false } =
      n.self.loc.awaiting := by
    simp only [Local.awaiting, before]
    rfl
  refine ⟨?_, ?_, ?_, ?_, ?_, fun _ _ _ some => some⟩
  · by_cases master : w = 0
    · refine tokenStep_to .resume ?_ ?_ ?_ rfl
      · simp only [Node.ring, agent]
      · simp [Node.ring, master]
      · simp only [Node.ring, tokens]
        rfl
    · exact tokens_unchanged agent (absurd · master) tokens rfl rfl
  · have created : (Node.custody cfg ctx w ⟨{ n.self with
        deque := t :: n.self.deque, pc := .shareWork .push, quiescent := false },
        n.net.create addr future (.alloc w)⟩).tasks =
        (.ready w, t.tag) ::ₘ (n.custody cfg ctx w).tasks := by
      simp only [Node.custody, tasks, Multiset.add_cons, Multiset.cons_add]
      rfl
    rw [tag] at created
    cases future with
    | false => exact custodyStep_to .create created (coe_concat _ _) rfl rfl rfl rfl rfl
    | true =>
      exact custodyStep_to (.createFuture (.inl rfl)) created (coe_concat _ _) rfl rfl rfl rfl rfl
  · refine Local.Plain.ok (.easy (by rfl)) ?_ pre.loc.stack notWaiting
      (pre.loc.not_inWait notWaiting) (fun quiet => absurd quiet Bool.false_ne_true)
      (fun quiet => absurd quiet Bool.false_ne_true) pre.loc.unfinished
        (awaiting ▸ pre.loc.awaiting)
    have siteOk := pre.loc.site
    rwa [before] at siteOk
  · exact ⟨pre.net.running, pre.net.lossless, pre.net.requests, pre.net.slots⟩
  · refine pre.depends.goPlain notWaiting awaiting ?_ fun f known => ?_
    · simp only [Network.create]
      split
      · exact Nat.le_succ _
      · exact le_rfl
    · simp only [Network.create]
      split
      · rw [update_of_ne known.ne]
        exact ⟨rfl, rfl, rfl⟩
      · exact ⟨rfl, rfl, rfl⟩

theorem Pre.spawns (pre : Pre cfg ctx w n) (here : n.self.pc = .user) (loop : Option (ℤ × ℤ))
    (future : Bool) : Ensures Elsewhere (userStep w (.spawn loop future) n)
      (Simulated cfg ctx w n) := by
  obtain ⟨alike, ⟨addr, net⟩, tag⟩ := newTask_facts w loop future n
  have master : (newTask w loop future n).2.self.quiescent = true → w = 0 := by
    rw [alike.quiescent]
    exact pre.loc.quiescent_master
  simp only [userStep, ensures_bind]
  refine (push_ensures master).mono ?_
  rintro _ rfl
  rw [ensures_pure, net]
  exact ((pre.alike alike).pushes (alike.pc.trans here) tag).of_alike alike

/-! ## Waiting for a future -/

theorem NetOk.setFuture {net : Network} {f : ℕ} {content : LazyFuture} (ok : NetOk cfg net) :
    NetOk cfg (net.setFuture f content) :=
  ⟨ok.running, ok.lossless, ok.requests, ok.slots⟩

theorem Pre.awaits (pre : Pre cfg ctx w n) (here : n.self.pc = .user) {f : ℕ}
    (awaitable : n.net.awaitable w f = true) : Simulated cfg ctx w n (awaitOwn f n) := by
  simp only [Network.awaitable, Bool.and_eq_true, decide_eq_true_eq, beq_iff_eq,
    Bool.not_eq_true'] at awaitable
  obtain ⟨⟨known, creator⟩, unasked⟩ := awaitable
  have before : n.self.loc.pc = .user := here
  have notWaiting := pre.not_waiting (by rw [here]; rfl)
  have fresh : f ∉ n.self.loc.awaiting := by
    intro member
    have asked := (pre.depends.futures f member).2.2.2
    exact absurd (asked.symm.trans unasked) (by simp)
  have awaiting : (awaitOwn f n).self.loc.awaiting = f :: n.self.loc.awaiting := by
    simp only [Local.awaiting, before]
    rfl
  refine ⟨?_, ?_, ?_, pre.net.setFuture, ⟨?_, ?_⟩, fun _ _ _ some => some⟩
  · refine tokens_unchanged ?_ (fun _ => rfl) ?_ rfl rfl
    · simp only [Worker.agent, awaitOwn, Node.goto, here]
      rfl
    · simp only [Worker.tokens, awaitOwn, Node.goto, here]
      rfl
  · refine custodyStep_to (.await creator) ?_ rfl rfl rfl rfl rfl rfl
    simp only [Node.custody, Worker.tasks, awaitOwn, Node.goto, here]
    rfl
  · refine Local.Plain.ok (.easy (by rfl)) ?_ pre.loc.stack notWaiting
      (pre.loc.not_inWait notWaiting) pre.loc.quiescent_master ?_ pre.loc.unfinished ?_
    · have siteOk := pre.loc.site
      rwa [before] at siteOk
    · intro quiescent several
      obtain ⟨deque, rets, -⟩ := pre.loc.quiescent_empty quiescent several
      exact ⟨deque, rets, rfl⟩
    · rw [awaiting]
      exact List.nodup_cons.mpr ⟨fresh, pre.loc.awaiting⟩
  · intro g member
    rw [awaiting] at member
    simp only [awaitOwn, Node.goto, Network.setFuture]
    by_cases same : g = f
    · subst same
      rw [update_self]
      exact ⟨known, creator, (pre.kept.sound g known).unread unasked, rfl⟩
    · rw [update_of_ne same]
      exact pre.depends.futures g ((List.mem_cons.mp member).resolve_left same)
  · exact fun _ waiting => absurd (waiting.symm.trans notWaiting) (by simp)

/-- `READY`, and the end of `RT_force_future`. -/
theorem Pre.forces (pre : Pre cfg ctx w n) {f : Awaited} {point : ReadyPoint} {ready : Bool}
    (here : n.self.pc = .forceReady f point) :
    Ensures Elsewhere (forceStep f point ready n) (Simulated cfg ctx w n) := by
  have busy : n.self.pc.isIdle = false := by rw [here]; rfl
  have notWaiting := pre.not_waiting busy
  have before : n.self.loc.pc = .forceReady f point := here
  have siteOk := pre.loc.site
  rw [before] at siteOk
  have hand : n.self.pc.hand = none := by rw [here]; rfl
  have held : n.self.pc.held = none := by rw [here]; rfl
  have next : Simulated cfg ctx w n (n.goto (point.next f)) := by
    have site : (point.next f).site = n.self.pc.site := by
      rw [here]
      cases point <;> rfl
    refine pre.goPlain ⟨?_, ?_, ?_, ?_⟩ ?_ busy ?_ (congrArg Site.futures site) ?_
    · cases point <;> rfl
    · cases point <;> exact fun found => absurd found Bool.false_ne_true
    · cases point <;> trivial
    · intro site i receives
      cases point <;> cases receives
      exact cfg.someSteal
    · rw [hand]
      cases point <;> rfl
    · rw [site, here]
      exact siteOk
    · rw [held]
      cases point <;> rfl
  cases f with
  | foreign =>
    simp only [forceStep, ensures_pure]
    split
    · exact pre.goPlain (.easy (by rfl)) hand.symm busy siteOk (by rw [here]; rfl)
        held.symm
    · exact next
  | own i =>
    obtain ⟨known, creator, unread, asked⟩ := pre.depends.futures i (by
      simp only [Local.awaiting, before]
      exact List.mem_append_left _ List.mem_cons_self)
    have forcing := (pre.kept.sound i known).force asked unread
    simp only [forceStep, ensures_bind]
    cases forced : (n.net.futures i).force with
    | error stop =>
      cases stop with
      | disabled => trivial
      | fault which => exact (forcing.tolerates forced).elim
    | ok out =>
      cases out with
      | none => exact next
      | some content =>
        have awaiting : n.self.loc.awaiting =
            i :: (Node.goto { n with net := n.net.setFuture i content }
              .user).self.loc.awaiting := by
          simp only [Local.awaiting, before]
          rfl
        have distinct := pre.loc.awaiting
        rw [awaiting] at distinct
        obtain ⟨apart, distinct⟩ := List.nodup_cons.mp distinct
        refine ⟨?_, ?_, ?_, pre.net.setFuture, ⟨?_, ?_⟩, fun _ _ _ some => some⟩
        · refine tokens_unchanged ?_ (fun _ => rfl) ?_ rfl rfl
          · simp only [Worker.agent, Node.goto, here]
            rfl
          · simp only [Worker.tokens, Node.goto, here]
            rfl
        · refine custodyStep_to (.collect known creator asked unread forced) ?_
            rfl rfl rfl rfl rfl rfl
          simp only [Node.custody, Worker.tasks, Node.goto, here]
          rfl
        · refine Local.Plain.ok (.easy (by rfl)) siteOk pre.loc.stack notWaiting
            (pre.loc.not_inWait notWaiting) pre.loc.quiescent_master ?_ pre.loc.unfinished distinct
          intro quiescent several
          obtain ⟨deque, rets, -⟩ := pre.loc.quiescent_empty quiescent several
          exact ⟨deque, rets, rfl⟩
        · intro g member
          have other : g ≠ i := by
            rintro rfl
            exact apart member
          simp only [Node.goto, Network.setFuture, update_of_ne other]
          exact pre.depends.futures g (awaiting ▸ List.mem_cons_of_mem _ member)
        · exact fun _ waiting => absurd (waiting.symm.trans notWaiting) (by simp)

/-! ## User code -/

theorem setCurrentFutures_alike (x : Worker) (futures : List ℕ) :
    Alike x (x.setCurrentFutures futures) := by
  unfold Worker.setCurrentFutures
  split
  · next frame rest frames => exact .withTop frames rfl
  · exact ⟨rfl, rfl, rfl, rfl⟩

theorem asyncFor_ensures (x : Worker) : Ensures Elsewhere (asyncFor x) (Alike x) := by
  unfold asyncFor
  split
  · simp [Elsewhere]
  · next frame rest frames =>
    simp only [ensures_bind, ensures_check, ensures_pure]
    refine ⟨fun _ => ⟨fun _ => .withTop frames rfl, fun _ => ?_⟩, fun _ => ?_⟩ <;> simp [Elsewhere]

theorem iterate_ensures (x : Worker) : Ensures Elsewhere (iterate x) fun x' =>
    ∃ y, Alike x y ∧ x' = { y with pc := .shareWork .poll } := by
  unfold iterate
  split
  · trivial
  · next frame rest frames =>
    split
    · trivial
    · simp only [ensures_bind, ensures_await, ensures_pure]
      refine fun _ => ⟨{ x with frames := _ :: rest }, ?_, rfl⟩
      exact .withTop frames rfl

theorem Pre.reduces (pre : Pre cfg ctx w n) (here : n.self.pc = .user) :
    Simulated cfg ctx w n (reduce w n) := by
  unfold reduce
  split
  · exact .refl pre
  · next f rest _ =>
    have alike := setCurrentFutures_alike n.self rest
    have pre' := pre.alike alike
    have here' : (n.self.setCurrentFutures rest).pc = .user := alike.pc.trans here
    refine Simulated.of_alike alike ?_
    simp only
    split
    · next awaitable => exact pre'.awaits here' awaitable
    · have siteOk := pre'.loc.site
      rw [show (n.self.setCurrentFutures rest).loc.pc = .user from here'] at siteOk
      exact pre'.goPlain (.easy (by rfl)) (by rw [here']; rfl) (by rw [here']; rfl) siteOk
        (by rw [here']; rfl) (by rw [here']; rfl)

theorem Pre.userStep (pre : Pre cfg ctx w n) (here : n.self.pc = .user) (act : UserAct) :
    Ensures Elsewhere (userStep w act n) fun n' => Exits w n n' ∨ Simulated cfg ctx w n n' := by
  have busy : n.self.pc.isIdle = false := by rw [here]; rfl
  have siteOk := pre.loc.site
  rw [show n.self.loc.pc = .user from here] at siteOk
  cases act with
  | spawn loop future => exact (pre.spawns here loop future).mono fun _ => .inr
  | poll =>
    exact .inr (pre.goPlain (.easy (by rfl)) (by rw [here]; rfl) busy siteOk
      (by rw [here]; rfl) (by rw [here]; rfl))
  | await f =>
    cases f with
    | foreign =>
      exact .inr (pre.goPlain (.easy (by rfl)) (by rw [here]; rfl) busy siteOk
        (by rw [here]; rfl) (by rw [here]; rfl))
    | own f =>
      simp only [Runtime.userStep, ensures_bind, ensures_await]
      exact fun awaitable => .inr (pre.awaits here awaitable)
  | reduce => exact .inr (pre.reduces here)
  | barrier =>
    simp only [Runtime.userStep]
    split
    · exact .inr (.refl pre)
    · next master =>
      simp only [ensures_bind, ensures_check, ensures_pure]
      refine ⟨fun root => .inr ?_, fun _ => by simp [Elsewhere]⟩
      refine pre.goPlain (.easy (by rfl)) (by rw [here]; rfl) busy ?_ (by rw [here]; rfl)
        (by rw [here]; rfl)
      exact ⟨by simpa using master, by simp [Worker.loc, root]⟩
  | exit =>
    simp only [Runtime.userStep, exitFn, ensures_bind, ensures_await, ensures_check, ensures_pure]
    rintro ⟨master, root⟩
    refine ⟨fun _ => ⟨fun flags => ⟨fun quiescent => .inl ?_, ?_⟩, ?_⟩, ?_⟩
    · obtain ⟨left, right⟩ := Bool.and_eq_true_iff.mp flags
      refine ⟨master, here, root, fun side => ?_, quiescent master, rfl⟩
      cases side with
      | left => exact left
      | right => exact right
    all_goals simp [Elsewhere]
  | asyncFor =>
    simp only [Runtime.userStep, ensures_bind]
    exact (asyncFor_ensures n.self).mono fun x alike =>
      .inr (Simulated.of_alike alike (.refl (pre.alike alike)))
  | iterate =>
    simp only [Runtime.userStep, ensures_bind]
    refine (iterate_ensures n.self).mono ?_
    rintro _ ⟨y, alike, rfl⟩
    have here' : y.pc = .user := alike.pc.trans here
    have siteOk' := (pre.alike alike).loc.site
    rw [show y.loc.pc = .user from here'] at siteOk'
    refine .inr (Simulated.of_alike alike ((pre.alike alike).goPlain (.easy (by rfl))
      ?_ ?_ siteOk' ?_ ?_)) <;> (rw [here']; rfl)
  | finish value => exact (pre.finishes here value).mono fun _ => .inr

/-! ## Popping a task -/

theorem dequePop_facts (site : Site) (x : Worker) :
    (dequePop site x).1.toList ++ (dequePop site x).2 = x.deque ∧
      ((dequePop site x).1 = none → site.isIdle = true → (dequePop site x).2 = []) := by
  unfold dequePop
  split
  · next empty => simp [empty]
  · next t rest some =>
    split
    · split
      · simp [some]
      · simp [some, Site.isIdle]
    · simp [some]
    · simp [some]

/-- `deque_pop`: the popped task is in the worker's hands now. -/
theorem Pre.pops_to (pre : Pre cfg ctx w n) {site : Site} (here : n.self.pc = .pop site)
    {pc : Pc} (held : pc.held = (dequePop site n.self).1) (hand : pc.hand = none)
    (pcSite : pc.site = some site)
    (plain : { n.self.loc with pc := pc, deque := (dequePop site n.self).2 }.Plain cfg w) :
    Simulated cfg ctx w n
      (Node.goto { n with self := { n.self with deque := (dequePop site n.self).2 } } pc) := by
  obtain ⟨split, -⟩ := dequePop_facts site n.self
  have busy : n.self.pc.isIdle = false := by rw [here]; rfl
  have notWaiting := pre.not_waiting busy
  have before : n.self.loc.pc = .pop site := here
  have siteOk := pre.loc.site
  rw [before] at siteOk
  have futures : Site.futures pc.site = Site.futures n.self.loc.pc.site := by
    rw [before, pcSite]
    rfl
  refine ⟨?_, ?_, ?_, pre.net, ?_, fun _ _ _ some => some⟩
  · refine tokens_unchanged ?_ (fun _ => rfl) ?_ rfl rfl
    · simp only [Worker.agent, Node.goto, busy, (Pc.plain_facts plain.plain).1]
      rfl
    · simp only [Worker.tokens, Node.goto, hand, here]
      rfl
  · have same : Node.custody cfg ctx w (Node.goto { n with self := { n.self with
        deque := (dequePop site n.self).2 } } pc) = n.custody cfg ctx w := by
      simp only [Node.custody, Node.goto, Worker.tasks, held, split, here]
      rfl
    rw [same]
  · refine pre.loc.goPlain plain (pcSite ▸ siteOk) futures notWaiting fun quiescent several => ?_
    have empty : n.self.deque = [] := (pre.loc.quiescent_empty quiescent several).1
    rw [empty, List.append_eq_nil_iff] at split
    exact ⟨split.2, held.trans (by simpa using split.1)⟩
  · refine pre.depends.goPlain notWaiting ?_ le_rfl fun _ _ => ⟨rfl, rfl, rfl⟩
    simp only [Local.awaiting] at futures ⊢
    exact congrArg (· ++ _) futures

theorem Pre.pops (pre : Pre cfg ctx w n) {site : Site} (here : n.self.pc = .pop site) :
    Simulated cfg ctx w n (popStep cfg site n) := by
  have facts := dequePop_facts site n.self
  have rule := @Pre.pops_to cfg ctx w n pre site here
  unfold popStep
  generalize dequePop site n.self = popped at facts rule
  obtain ⟨task, deque⟩ := popped
  cases task with
  | none => exact rule rfl rfl rfl ⟨rfl, facts.2 rfl, trivial, nofun⟩
  | some t =>
    simp only
    split
    · exact rule rfl rfl rfl (.easy (by rfl))
    · exact rule rfl rfl rfl (.easy (by rfl))

end Tasks

end Tasking.Runtime
