import Tasking.LocalState

/-! What the functions that handle steal requests can do, one lemma for each.
The lemmas also say which assertions of those functions cannot fail: those that
follow from the worker's account.  `Elsewhere` lists the assertions that do not. -/
namespace Tasking.Runtime
open Fallible TokenProtocol WorkerTree

/-- The assertions that rest on other arguments: the choice of a victim, the cut
of a loop, and the ways a user's program can misuse the interface. -/
def Elsewhere (which : Fault) : Prop :=
  VictimFault which ∨ which ∈ [.declineTry, .declineWorking, .lastVictimSelf, .splitItersLeft,
    .splitChunk, .splitLoopNullTask, .asyncForSplittable, .asyncForStart, .barrierRoot,
    .exitFinished, .exitSubtreesIdle, .exitQuiescent, .exitSend]

instance : DecidablePred Elsewhere := fun _ => inferInstanceAs (Decidable (_ ∨ _))

/-- Every request channel has room for one more request. -/
def Network.Room (cfg : Config) (net : Network) : Prop :=
  ∀ v < cfg.numWorkers, (net.chanRequests v).length < cfg.requestCapacity

section Primitives

variable {cfg : Config} {n : Node} {x : Worker} {req : StealRequest} {ID v : ℕ}
  {rest : Multiset Token}

theorem sendReq_eq (room : n.net.Room cfg) (target : v < cfg.numWorkers) :
    sendReq cfg v req n = .ok { n with net := n.net.pushRequest v req } := by
  simp only [sendReq, room v target, ↓reduceIte]
  rfl

theorem channelPush_eq {chan : ℕ} (space : x.channelStack.length < cfg.maxSteal) :
    channelPush cfg chan x = .ok { x with channelStack := chan :: x.channelStack } := by
  simp only [channelPush, check, ne_eq, space.ne, not_false_eq_true, ↓reduceIte]
  rfl

/-- A worker with a request under way has room on its stack, and counts it, so that taking the
request back fails no assertion. -/
theorem stack_lt (acc : Account cfg.maxSteal x.agent (req.token ::ₘ rest)) :
    x.channelStack.length < cfg.maxSteal ∧ 0 < x.requested := by
  have total := acc.card_free
  have live := acc.live_eq
  have low := acc.dropped_nonneg
  simp only [Worker.agent, Multiset.coe_card, Multiset.card_cons] at total live low
  push_cast at live
  constructor <;> omega

theorem forgetReq_eq (own : req.ID = ID)
    (acc : Account cfg.maxSteal x.agent (req.token ::ₘ rest)) :
    forgetReq cfg ID req x = .ok { x with
      requested := x.requested - 1, channelStack := req.chan :: x.channelStack } := by
  obtain ⟨space, positive⟩ := stack_lt acc
  simp only [forgetReq, check, own, positive.ne', ne_eq, not_false_eq_true, ↓reduceIte]
  exact channelPush_eq space

theorem detectTermination_eq (master : ID = 0) (flags : ∀ side, x.flag side = true)
    (loud : x.quiescent = false) : detectTermination ID x = .ok { x with quiescent := true } := by
  have left : x.leftSubtreeIsIdle = true := flags .left
  have right : x.rightSubtreeIsIdle = true := flags .right
  unfold detectTermination
  rw [left, right, loud]
  simp only [check, master, Bool.and_self, Bool.not_false, ↓reduceIte]
  rfl

end Primitives

/-- What handling a request may do, other than splitting a loop. -/
inductive Outcome (cfg : Config) (ID : ℕ) (r : Token) (n : Node) : Node → Prop where
  | relayed {v : ℕ} {req : StealRequest} (target : v < cfg.numWorkers) (same : req.token = r) :
      Outcome cfg ID r n { n with net := n.net.pushRequest v req }
  | forgotten (own : r.owner = ID) : Outcome cfg ID r n { n with self := { n.self with
      requested := n.self.requested - 1, channelStack := r.chan :: n.self.channelStack } }
  | dropped (own : r.owner = ID) (idle : r.state = .idle)
      (below : ∀ side, n.self.flag side = true)
      (more : ¬ LastToken cfg.maxSteal n.self.agent r) :
      Outcome cfg ID r n { n with self := { n.self with
        channelStack := r.chan :: n.self.channelStack
        droppedStealRequests := n.self.droppedStealRequests + 1 } }
  | retired {p : ℕ} {req : StealRequest} (own : r.owner = ID)
      (last : LastToken cfg.maxSteal n.self.agent r) (climbs : parent ID = some p)
      (same : req.token = { r with state := .failed }) :
      Outcome cfg ID r n ⟨{ n.self with
        waitingForTasks := true, inWait := cfg.backoff = .waitCond }, n.net.pushRequest p req⟩
  | detected (own : r.owner = ID) (master : ID = 0)
      (last : LastToken cfg.maxSteal n.self.agent r) :
      Outcome cfg ID r n { n with self := { n.self with
        quiescent := true, requested := n.self.requested - 1
        channelStack := r.chan :: n.self.channelStack } }
  | looted {req : StealRequest} (same : req.token = r) (other : r.owner ≠ ID)
      (some : n.self.deque ≠ []) : Outcome cfg ID r n (sendLoot cfg ID req n)

section Declining

variable {cfg : Config} {n : Node} {req : StealRequest} {ID : ℕ} {rest : Multiset Token}
  {o : Oracle} {r : Token}

/-- The last request of an idle worker: `goQuiescent` runs into no assertion. -/
theorem goQuiescent_ensures (worker : ID < cfg.numWorkers) (room : n.net.Room cfg)
    (own : req.ID = ID) (same : req.token = r)
    (acc : Account cfg.maxSteal n.self.agent (r ::ₘ rest))
    (last : LastToken cfg.maxSteal n.self.agent r)
    (unquiet : ID = 0 → n.self.quiescent = true → n.self.pc.isIdle = false) :
    Ensures Elsewhere (goQuiescent cfg ID req n) (Outcome cfg ID r n) := by
  have owner : r.owner = ID := by
    rw [← same]
    exact own
  have chan : req.chan = r.chan := by
    rw [← same]
    rfl
  have idle : n.self.pc.isIdle = true := by simpa [Worker.agent] using (acc.last last).1
  have live : r.state ≠ .failed := by simp [last.1]
  unfold goQuiescent
  split
  · next master =>
    have loud : n.self.quiescent = false := by
      by_contra quiet
      have busy := unquiet master (by simpa using quiet)
      rw [idle] at busy
      cases busy
    have quietAcc : Account cfg.maxSteal { n.self with quiescent := true }.agent
        (req.token ::ₘ rest) := same ▸ acc
    simp only [ensures_bind, detectTermination_eq master last.2.1 loud, ensures_ok,
      forgetReq_eq own quietAcc, ensures_pure, chan]
    exact .detected owner master last
  · next other =>
    obtain ⟨p, climbs⟩ := exists_parent other
    have inside : p < cfg.numWorkers := (parent_lt climbs).trans worker
    have notWaiting : n.self.waitingForTasks = false := acc.not_waiting live
    rw [climbs, Option.getD_some]
    simp only [ensures_bind, sendReq_eq room inside, ensures_ok, ensures_check, ensures_pure,
      notWaiting, Bool.not_false, forall_const, not_true_eq_false, false_imp_iff, and_true]
    exact .retired owner last climbs (by rw [← same]; rfl)

/-- With one request each, the request of an idle worker is its last one. -/
theorem lastToken_of_single (one : cfg.maxSteal = 1)
    (acc : Account cfg.maxSteal n.self.agent (r ::ₘ rest)) (idle : r.state = .idle)
    (flags : ∀ side, n.self.flag side = true) : LastToken cfg.maxSteal n.self.agent r := by
  have total := acc.card_free
  have counters := acc.counters
  have low := acc.dropped_nonneg
  have high := acc.dropped_lt
  simp only [Worker.agent, Multiset.coe_card, Multiset.card_cons, one] at total counters low high
  refine ⟨idle, flags, ?_, ?_⟩
  · simp only [Worker.agent, one]
    omega
  · simp only [Worker.agent, Multiset.coe_card, one]
    omega

/-- `decline_steal_request` on a request in the worker's hand. -/
theorem declineStealRequest_ensures (worker : ID < cfg.numWorkers) (room : n.net.Room cfg)
    (same : req.token = r) (live : r.state ≠ .failed)
    (acc : r.owner = ID → Account cfg.maxSteal n.self.agent (r ::ₘ rest))
    (unquiet : ID = 0 → n.self.quiescent = true → n.self.pc.isIdle = false) :
    Ensures Elsewhere (declineStealRequest cfg o ID req n) (Outcome cfg ID r n) := by
  have owner : req.ID = r.owner := by
    rw [← same]
    rfl
  have state : req.state = r.state := by
    rw [← same]
    rfl
  have chan : req.chan = r.chan := by
    rw [← same]
    rfl
  have victims : ∀ req' : StealRequest, Ensures Elsewhere (nextVictim cfg o.rand ID n.self req')
      fun out => out.1 < cfg.numWorkers ∧ out.2.token = req'.token := by
    intro req'
    refine ((nextVictim_ensures cfg o.rand ID n.self req').weaken fun _ => .inl).mono ?_
    rintro ⟨victim, chosen⟩ ⟨inside, set, rfl⟩
    exact ⟨inside, rfl⟩
  simp only [declineStealRequest, ensures_bind, ensures_check]
  refine ⟨fun _ => ?_, fun _ => by simp [Elsewhere]⟩
  split
  · next own =>
    have mine := acc (owner.symm.trans own)
    split
    · next giveUp =>
      obtain ⟨idle, left, right⟩ := giveUp
      have flags : ∀ side, n.self.flag side = true := by
        intro side
        cases side with
        | left => exact left
        | right => exact right
      split
      · next several =>
        split
        · next full =>
          have last : LastToken cfg.maxSteal n.self.agent r := by
            refine ⟨state.symm.trans idle, flags, full.1, ?_⟩
            have length := full.2
            simp only [Worker.agent, Multiset.coe_card]
            omega
          simp only [ensures_bind, ensures_check]
          refine ⟨fun _ => ?_, fun wrong => ?_⟩
          · exact goQuiescent_ensures worker room own same mine last unquiet
          · have dropped := (mine.last last).2.2
            simp only [Worker.agent] at dropped
            omega
        · next more =>
          have notWaiting : n.self.waitingForTasks = false := mine.not_waiting live
          obtain ⟨space, -⟩ := stack_lt (same ▸ mine : Account _ _ (req.token ::ₘ _))
          simp only [ensures_bind, ensures_check, channelPush_eq space, ensures_ok, ensures_pure,
            chan]
          refine ⟨fun _ => ?_, fun wrong => absurd (by simp [notWaiting]) wrong⟩
          refine .dropped (owner.symm.trans own) (state.symm.trans idle) flags ?_
          rintro ⟨-, -, requested, free⟩
          refine more ⟨requested, ?_⟩
          simp only [Worker.agent, Multiset.coe_card] at free
          omega
      · next single =>
        have one : cfg.maxSteal = 1 := by
          have := cfg.someSteal
          omega
        have last := lastToken_of_single one mine (state.symm.trans idle) flags
        exact goQuiescent_ensures worker room own same mine last unquiet
    · simp only [ensures_bind]
      refine (victims _).mono ?_
      rintro ⟨victim, chosen⟩ ⟨inside, kept⟩
      have kept : chosen.token = r := kept.trans same
      split
      · rw [sendReq_eq room inside]
        exact .relayed inside kept
      · have ownChosen : chosen.ID = ID := by
          have := congrArg Token.owner kept
          exact this.trans (owner.symm.trans own)
        have chanChosen : chosen.chan = r.chan := congrArg Token.chan kept
        simp only [ensures_bind, ensures_check, forgetReq_eq ownChosen (kept ▸ mine), ensures_ok,
          ensures_pure, chanChosen]
        exact ⟨fun _ => .forgotten (owner.symm.trans own), fun _ => by simp [Elsewhere]⟩
  · simp only [ensures_bind]
    refine (victims _).mono ?_
    rintro ⟨victim, chosen⟩ ⟨inside, kept⟩
    rw [sendReq_eq room inside]
    exact .relayed inside (kept.trans same)

/-- `handle_steal_request` on a request in the worker's hand. -/
theorem handleStealRequest_ensures (worker : ID < cfg.numWorkers) (room : n.net.Room cfg)
    (same : req.token = r) (live : r.state ≠ .failed)
    (acc : r.owner = ID → Account cfg.maxSteal n.self.agent (r ::ₘ rest))
    (unquiet : ID = 0 → n.self.quiescent = true → n.self.pc.isIdle = false) :
    Ensures Elsewhere (handleStealRequest cfg o ID req n) (Outcome cfg ID r n) := by
  have owner : req.ID = r.owner := by
    rw [← same]
    rfl
  have chan : req.chan = r.chan := by
    rw [← same]
    rfl
  have state : req.state ≠ .failed := by
    rw [← same] at live
    exact live
  have declines := declineStealRequest_ensures (o := o) worker room same live acc unquiet
  unfold handleStealRequest
  split
  · next own =>
    simp only [ensures_bind, ensures_check, ensures_ite]
    refine ⟨fun _ => ⟨fun _ => ?_, fun _ => declines⟩, fun wrong => absurd state wrong⟩
    rw [forgetReq_eq own (same ▸ acc (owner.symm.trans own)), chan]
    exact .forgotten (owner.symm.trans own)
  · next other =>
    split
    · exact declines
    · next some =>
      exact .looted same (fun own => other (owner.trans own)) some

end Declining

/-! ## Bookkeeping -/

/-- What the bookkeeping of requests leaves alone: whatever has to do with tasks. -/
structure KeepsWork (x x' : Worker) : Prop where
  pc : x'.pc = x.pc
  deque : x'.deque = x.deque
  frames : x'.frames = x.frames
  freelist : x'.freelist = x.freelist
  quiescent : x'.quiescent = x.quiescent

section Bookkeeping

variable {cfg : Config} {w : ℕ} {x : Worker} {req : StealRequest} {n : Node}

theorem adaptStrategy_keepsWork (cfg : Config) (x : Worker) :
    KeepsWork x (adaptStrategy cfg x) := by
  unfold adaptStrategy
  split <;> exact ⟨rfl, rfl, rfl, rfl, rfl⟩

theorem forgetReq_keepsWork :
    Ensures (fun _ => True) (forgetReq cfg w req x) (KeepsWork x) := by
  simp only [forgetReq, channelPush, ensures_bind, ensures_check, ensures_pure, implies_true,
    and_true]
  exact fun _ _ _ => ⟨rfl, rfl, rfl, rfl, rfl⟩

theorem holdOn_keepsWork : Ensures (fun _ => True) (holdOn cfg w req x) (KeepsWork x) := by
  simp only [holdOn, ensures_bind, ensures_check, ensures_ite, ensures_pure, implies_true, and_true]
  exact fun _ => ⟨fun _ _ _ => ⟨rfl, rfl, rfl, rfl, rfl⟩, fun _ _ _ => ⟨rfl, rfl, rfl, rfl, rfl⟩⟩

theorem clearLifeline_keepsWork {child : ℕ} :
    Ensures (fun _ => True) (clearLifeline cfg w child x) (KeepsWork x) := by
  simp only [clearLifeline, ensures_bind, ensures_check, ensures_ite, ensures_pure, implies_true,
    and_true]
  exact ⟨fun _ _ => ⟨rfl, rfl, rfl, rfl, rfl⟩, fun _ _ => ⟨rfl, rfl, rfl, rfl, rfl⟩⟩

theorem receivedTask_keepsWork {chan : ℕ} :
    Ensures (fun _ => True) (receivedTask cfg chan x) (KeepsWork x) := by
  simp only [receivedTask, channelPush, ensures_bind, ensures_check, ensures_ite, ensures_pure,
    implies_true, and_true]
  exact fun _ => ⟨fun _ _ _ _ _ => ⟨rfl, rfl, rfl, rfl, rfl⟩, fun _ =>
    ⟨fun _ _ _ _ => ⟨rfl, rfl, rfl, rfl, rfl⟩, fun _ _ _ => ⟨rfl, rfl, rfl, rfl, rfl⟩⟩⟩

/-! ### Sending, in any state -/

/-- A request is put into a channel, or nothing changes. -/
def Network.Sent (net net' : Network) : Prop :=
  net' = net ∨ ∃ target req, net' = net.pushRequest target req

theorem sendReq_sent {target : ℕ} :
    Ensures (fun _ => True) (sendReq cfg target req n) fun n' =>
      n'.self = n.self ∧ n.net.Sent n'.net := by
  unfold sendReq
  split
  · exact ⟨rfl, .inr ⟨target, req, rfl⟩⟩
  · split
    · exact ⟨rfl, .inl rfl⟩
    · trivial

theorem Network.Sent.tasks {net net' : Network} (sent : net.Sent net') :
    net'.chanTasks = net.chanTasks ∧ net'.nextAddr = net.nextAddr ∧ net'.nextId = net.nextId := by
  rcases sent with rfl | ⟨target, req, rfl⟩
  · exact ⟨rfl, rfl, rfl⟩
  · exact ⟨rfl, rfl, rfl⟩

/-- `try_send_steal_request` sends one request, if the worker may. -/
theorem trySendStealRequest_sent {o : Oracle} {idle : Bool} :
    Ensures (fun _ => True) (trySendStealRequest cfg o w idle n) fun n' =>
      if n.self.requested < cfg.maxSteal then
        n.net.Sent n'.net ∧ ∃ stack, n'.self = { adaptStrategy cfg n.self with
          channelStack := stack, requested := (adaptStrategy cfg n.self).requested + 1 }
      else n' = n := by
  unfold trySendStealRequest
  split
  · rw [ensures_bind]
    unfold channelPop
    split
    · trivial
    · next chan rest _ =>
      rw [ensures_pure, ensures_bind]
      refine Ensures.any.mono fun chosen _ => ?_
      rw [ensures_bind]
      refine sendReq_sent.mono fun n' sent => ?_
      rw [ensures_pure]
      exact ⟨sent.2, rest, by rw [sent.1]⟩
  · rfl

/-- What declining a request leaves alone, in any state: the tasks of the worker and
where it is, and the task channels.  There are no more requests than before. -/
structure Sheds (n n' : Node) : Prop where
  pc : n'.self.pc = n.self.pc
  deque : n'.self.deque = n.self.deque
  frames : n'.self.frames = n.self.frames
  freelist : n'.self.freelist = n.self.freelist
  requested : n'.self.requested ≤ n.self.requested
  recent : n'.self.numRecentSteals = n.self.numRecentSteals
  chanTasks : n'.net.chanTasks = n.net.chanTasks
  nextAddr : n'.net.nextAddr = n.net.nextAddr
  nextId : n'.net.nextId = n.net.nextId

theorem sendReq_sheds {target : ℕ} :
    Ensures (fun _ => True) (sendReq cfg target req n) (Sheds n) := by
  refine sendReq_sent.mono fun n' sent => ?_
  obtain ⟨chanTasks, nextAddr, nextId⟩ := sent.2.tasks
  refine ⟨?_, ?_, ?_, ?_, ?_, ?_, chanTasks, nextAddr, nextId⟩ <;> rw [sent.1]

theorem forgetReq_sheds : Ensures (fun _ => True) (forgetReq cfg w req n.self)
    fun x => Sheds n { n with self := x } := by
  simp only [forgetReq, channelPush, ensures_bind, ensures_check, ensures_pure, implies_true,
    and_true]
  exact fun _ _ _ => ⟨rfl, rfl, rfl, rfl, Int.sub_le_self _ (by decide), rfl, rfl, rfl, rfl⟩

theorem goQuiescent_sheds :
    Ensures (fun _ => True) (goQuiescent cfg w req n) (Sheds n) := by
  unfold goQuiescent
  split
  · simp only [detectTermination, ensures_bind, ensures_check, ensures_pure, implies_true, and_true]
    refine fun _ _ _ => ?_
    have forgets := @forgetReq_sheds cfg w req { n with self := { n.self with quiescent := true } }
    exact forgets.mono fun x same => ⟨same.pc, same.deque, same.frames, same.freelist,
      same.requested, same.recent, rfl, rfl, rfl⟩
  · rw [ensures_bind]
    refine sendReq_sheds.mono fun n' same => ?_
    simp only [ensures_bind, ensures_check, ensures_pure, implies_true, and_true]
    exact fun _ => ⟨same.pc, same.deque, same.frames, same.freelist, same.requested, same.recent,
      same.chanTasks, same.nextAddr, same.nextId⟩

theorem declineStealRequest_sheds {o : Oracle} :
    Ensures (fun _ => True) (declineStealRequest cfg o w req n) (Sheds n) := by
  simp only [declineStealRequest, ensures_bind, ensures_check, implies_true, and_true]
  intro _
  split
  · split
    · split
      · split
        · simp only [ensures_bind, ensures_check, implies_true, and_true]
          exact fun _ => goQuiescent_sheds
        · simp only [channelPush, ensures_bind, ensures_check, ensures_pure, implies_true, and_true]
          exact fun _ _ => ⟨rfl, rfl, rfl, rfl, le_rfl, rfl, rfl, rfl, rfl⟩
      · exact goQuiescent_sheds
    · rw [ensures_bind]
      refine Ensures.any.mono fun chosen _ => ?_
      split
      · exact sendReq_sheds
      · simp only [ensures_bind, ensures_check, implies_true, and_true]
        exact fun _ => forgetReq_sheds
  · rw [ensures_bind]
    exact Ensures.any.mono fun chosen _ => sendReq_sheds

end Bookkeeping

/-! ## Splitting -/

/-- The two workers differ only in bookkeeping: where task objects come from, the
ranges and the lists of futures of the tasks on the stack, and what the choice of
victims remembers. -/
structure Alike (x x' : Worker) : Prop where
  loc : x'.loc = x.loc
  agent : x'.agent = x.agent
  queue : x'.workSharingRequests = x.workSharingRequests
  tags : x'.frames.map (fun frame => frame.task.tag) = x.frames.map fun frame => frame.task.tag

namespace Alike

variable {x x' x'' : Worker}

theorem refl (x : Worker) : Alike x x := ⟨rfl, rfl, rfl, rfl⟩

theorem trans (first : Alike x x') (second : Alike x' x'') : Alike x x'' :=
  ⟨second.loc.trans first.loc, second.agent.trans first.agent, second.queue.trans first.queue,
    second.tags.trans first.tags⟩

theorem pc (same : Alike x x') : x'.pc = x.pc := congrArg Local.pc same.loc

theorem deque (same : Alike x x') : x'.deque = x.deque := congrArg Local.deque same.loc

theorem quiescent (same : Alike x x') : x'.quiescent = x.quiescent :=
  congrArg Local.quiescent same.loc

theorem tokens (same : Alike x x') (w : ℕ) : x'.tokens w = x.tokens w := by
  simp only [Worker.tokens, same.queue, same.pc]

theorem tasks (same : Alike x x') (w : ℕ) : x'.tasks w = x.tasks w := by
  have tags : x'.frames.map (Task.tag ∘ Frame.task) = x.frames.map (Task.tag ∘ Frame.task) :=
    same.tags
  simp only [Worker.tasks, same.pc, same.deque, tagsOf, List.map_map, tags]

/-- Changing the innermost task in ways that neither its tag nor its way back
shows. -/
theorem withTop {frame : Frame} {rest : List Frame} (frames : x.frames = frame :: rest)
    {t : Task} (tag : t.tag = frame.task.tag) :
    Alike x { x with frames := { frame with task := t } :: rest } := by
  refine ⟨?_, rfl, rfl, ?_⟩
  · simp only [Worker.loc, frames, List.map_cons]
    rfl
  · simp [frames, tag]

end Alike

theorem taskAlloc_alike (n : Node) : Alike n.self (taskAlloc n).2.self ∧
    ∃ addr, (taskAlloc n).2.net = { n.net with nextAddr := addr } := by
  unfold taskAlloc
  split
  · exact ⟨⟨rfl, rfl, rfl, rfl⟩, n.net.nextAddr, rfl⟩
  · exact ⟨.refl _, n.net.nextAddr + 1, rfl⟩

theorem registerFuture_ensures (ID f : ℕ) (x : Worker) :
    Ensures Elsewhere (registerFuture ID f x) (Alike x) := by
  unfold registerFuture
  split
  · next frame rest frames => exact .withTop frames rfl
  · split
    · exact ⟨rfl, rfl, rfl, rfl⟩
    · simp [Elsewhere]

theorem shortenCurrent_alike (x : Worker) (split : ℤ) : Alike x (x.shortenCurrent split) := by
  unfold Worker.shortenCurrent
  split
  · exact .refl x
  · next frame rest frames => exact .withTop frames rfl

/-- The shared state after a task was created, possibly with a future. -/
def Network.create (net : Network) (addr : ℕ) (future : Bool) (content : LazyFuture) : Network :=
  { net with
    nextAddr := addr
    nextId := net.nextId + 1
    created := net.created ++ [net.nextId]
    futures := if future then Function.update net.futures net.nextFuture content
      else net.futures
    nextFuture := if future then net.nextFuture + 1 else net.nextFuture }

/-- What `split_loop` does besides shortening the task it was given. -/
structure SplitOff (ID : ℕ) (future : Bool) (r : Token) (n n' : Node) : Prop where
  self : Alike n.self n'.self
  net : ∃ addr dup, dup.tag = ⟨n.net.nextId, if future then some n.net.nextFuture else none⟩ ∧
    n'.net = (n.net.create addr future (.heap ID)).sendTasks r.owner r.chan [dup] r.state

private theorem splitFunc_elsewhere (cfg : Config) (pending : ℕ) (range : Loops.LoopRange) :
    Ensures Elsewhere (Loops.splitFunc cfg.split cfg.numWorkers pending range) fun _ => True := by
  cases cfg.split with
  | half => trivial
  | guided =>
    simp only [Loops.splitFunc, Loops.splitGuided, ensures_bind, ensures_check, ensures_ite,
      ensures_pure]
    simp [Elsewhere]
  | adaptive =>
    simp only [Loops.splitFunc, Loops.splitAdaptive, ensures_bind, ensures_check, ensures_pure]
    simp [Elsewhere]

private theorem patchFuture_ensures (ID : ℕ) (dup : Task) (n : Node) :
    Ensures Elsewhere (patchFuture ID dup n) fun out => Alike n.self out.2.self ∧
      out.1.tag = ⟨dup.id, if dup.future.isSome then some n.net.nextFuture else none⟩ ∧
      out.2.net = { n.net with
        futures := if dup.future.isSome then
          Function.update n.net.futures n.net.nextFuture (.heap ID) else n.net.futures
        nextFuture := if dup.future.isSome then n.net.nextFuture + 1 else n.net.nextFuture } := by
  unfold patchFuture
  split
  · next none =>
    simp [none, Task.tag, Alike.refl]
  · next f some =>
    simp only [ensures_bind]
    refine (registerFuture_ensures ID n.net.nextFuture n.self).mono fun x same => ?_
    rw [some]
    exact ⟨same, rfl, rfl⟩

theorem splitLoop_ensures {cfg : Config} {o : Oracle} {ID : ℕ} {task : Task} {req : StealRequest}
    {n : Node} (other : req.ID ≠ ID) :
    Ensures Elsewhere (splitLoop cfg o ID task req n) fun out =>
      SplitOff ID task.future.isSome req.token n out.2 := by
  obtain ⟨alike, addr, net⟩ := taskAlloc_alike n
  simp only [splitLoop, ensures_bind, ensures_check, other, not_false_eq_true, ne_eq, forall_const,
    not_true_eq_false, false_imp_iff, and_true]
  refine (splitFunc_elsewhere cfg o.pending task.range).mono fun split _ => ?_
  refine (patchFuture_ensures ID _ _).mono ?_
  rintro ⟨dup, n'⟩ ⟨same, tag, after⟩
  simp only [ensures_pure]
  refine ⟨(alike.trans same).trans ⟨rfl, rfl, rfl, rfl⟩, addr, dup, ?_, ?_⟩
  · rw [tag, net]
  · have id : dup.id = n.net.nextId := by
      have := congrArg Custody.Tag.id tag
      rw [net] at this
      exact this
    rw [after, id, net]
    rfl

end Tasking.Runtime
