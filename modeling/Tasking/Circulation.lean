import Tasking.Lifelines
import Tasking.VictimChoice

/-! How steal requests travel.  A step of a worker takes a request out of a channel,
puts one into a channel, or neither; a request that is put into a channel was either
given up by its sender, or is what `next_victim` made of it.  From this follows what
is known of every request under way (`Fit`), and that the assertions of `next_victim`
and of its callers hold. -/
namespace Tasking.Runtime
open Fallible TokenProtocol WorkerTree Function

/-- The assertions about the path of a request. -/
def CirculationFault (which : Fault) : Prop :=
  VictimFault which ∨ which = .declineTry ∨ which = .declineWorking

instance : DecidablePred CirculationFault := fun _ => inferInstanceAs (Decidable (_ ∨ _))

/-- Any other assertion may fail, as far as this module is concerned. -/
def Unrelated (which : Fault) : Prop := ¬ CirculationFault which

instance : DecidablePred Unrelated := fun _ => inferInstanceAs (Decidable (¬ _))

/-! ## Requests under way -/

/-- A request that circulates. -/
structure Sound (cfg : Config) (req : StealRequest) : Prop where
  live : req.state ≠ .failed
  sender : req.ID < cfg.numWorkers
  below : ∀ i, potentialVictim req.victims i = true → i < cfg.numWorkers
  tries : req.tries ≤ cfg.maxStealAttempts

/-- A request in the channel of worker `i`: unless it has come home, it may still be
passed on. -/
structure InChannel (cfg : Config) (i : ℕ) (req : StealRequest) : Prop where
  unset : potentialVictim req.victims req.ID = false
  sound : req.state ≠ .failed → Sound cfg req
  asked : req.state ≠ .failed → req.ID ≠ i → req.tries < cfg.maxStealAttempts

/-- A request that worker `w` has received, in its own channel or on behalf of another. -/
structure InHand (cfg : Config) (w : ℕ) (req : StealRequest) : Prop where
  unset : potentialVictim req.victims req.ID = false
  sound : Sound cfg req
  asked : req.ID ≠ w → req.tries < cfg.maxStealAttempts

/-- The requests a worker holds on to are last requests of its children, and what is not
there is idle. -/
structure Holds (cfg : Config) (w : ℕ) (x : Worker) : Prop where
  queue : ∀ req ∈ x.workSharingRequests,
    req.state = .failed ∧ potentialVictim req.victims req.ID = false
  missing : ∀ side, cfg.numWorkers ≤ child w side → x.flag side = true

/-- The requests a worker has, and the channels it is about to look into. -/
structure WorkerFit (cfg : Config) (w : ℕ) (x : Worker) : Prop where
  hand : ∀ req, x.pc.hand = some req → InHand cfg w req
  holds : Holds cfg w x
  scan : x.pc.scanOk cfg w x.flag

/-- What becomes of a request that a worker has in its hand, or is about to send. -/
inductive Disposed (cfg : Config) (w : ℕ) (x : Worker) (hand : Option StealRequest)
    (net net' : Network) : Prop where
  | gone (after : net'.chanRequests = net.chanRequests)
  | passed {v : ℕ} {req req' : StealRequest} (call : Call cfg w req)
      (chosen : Chosen cfg w x req v req') (live : req.state ≠ .failed)
      (source : req.ID = w ∨ ∃ held, hand = some held ∧ req = { held with tries := held.tries + 1 })
      (after : net'.chanRequests = (net.pushRequest v req').chanRequests)
  | gaveUp {p : ℕ} {req : StealRequest} (failed : req.state = .failed)
      (unset : potentialVictim req.victims req.ID = false)
      (after : net'.chanRequests = (net.pushRequest p req).chanRequests)

/-- What worker `w` took out of channel `i` as `req`, and has in its hand as `taken`. -/
structure Taken (w i : ℕ) (x : Worker) (req taken : StealRequest) : Prop where
  live : req.state ≠ .failed
  same : ∃ state, taken = { req with state := state }
  behalf : i = w ∨ req.ID ≠ i ∧ x.SeesIdle w i

/-- What a step does to the request channels and to the worker's hand. -/
inductive Motion (cfg : Config) (w : ℕ) (n n' : Node) : Prop where
  | disposed (disposed : Disposed cfg w n.self n.self.pc.hand n.net n'.net)
      (hand : n'.self.pc.hand = none)
  | took {i : ℕ} {req : StealRequest} {rest : List StealRequest}
      (first : n.net.chanRequests i = req :: rest)
      (after : n'.net.chanRequests = (n.net.dropRequest i).chanRequests)
      (hand : ∀ taken, n'.self.pc.hand = some taken → Taken w i n'.self req taken)

/-- What this module says of a step. -/
structure Flows (cfg : Config) (w : ℕ) (n n' : Node) : Prop where
  fit : WorkerFit cfg w n'.self
  motion : Motion cfg w n n'

section Primitives

variable {cfg : Config} {w v : ℕ} {n : Node} {x : Worker} {req req' : StealRequest} {o : Oracle}

/-- If a request comes straight back to its sender, everybody else is known to be idle. -/
theorem Chosen.flags (chosen : Chosen cfg w x req w req') (call : Call cfg w req)
    (own : req.ID = w) (missing : ∀ side, cfg.numWorkers ≤ child w side → x.flag side = true)
    (side : Side) : x.flag side = true := by
  by_cases exist : cfg.numWorkers ≤ child w side
  · exact missing side exist
  · by_contra flag
    have above : w < child w side := by cases side <;> exact (by simp only [child]; omega)
    have more : req.tries ≠ cfg.maxStealAttempts := by
      rw [call.own_iff.mp own, Config.maxStealAttempts]
      omega
    -- the child on this side would be left to ask
    have unseen : ¬ x.SeesIdle w (child w side) := by
      rintro ⟨side', seen, below⟩
      rcases below.eq_or_under_child with same | ⟨c, climbs, lower⟩
      · have : side = side' := by cases side <;> cases side' <;> simp [child] at same ⊢
        exact flag (this ▸ seen)
      · have high := parent_eq_some.mp climbs
        have low := subtree_le lower
        cases side <;> cases side' <;> simp only [child] at high low <;> omega
    have set := (chosen.pruned more (child w side) (by omega)).mpr
      ⟨call.full own _ (by omega), by omega, unseen⟩
    rw [eq_zero_iff_no_victim.mp (chosen.empty more own.symm)] at set
    cases set

/-- A request that starts to circulate. -/
theorem call_own (few : cfg.numWorkers ≤ 32) (worker : w < cfg.numWorkers) (own : req.ID = w) :
    Call cfg w { req with tries := 0, victims := initVictims cfg.numWorkers } where
  worker := worker
  sender := own ▸ worker
  below i known := by simpa [potentialVictim_initVictims few] using known
  tries := Nat.zero_le _
  own_iff := by simp [own]
  unset other := absurd own other
  full _ i inside := by simpa [potentialVictim_initVictims few] using inside

/-- A request of another worker that is passed on. -/
theorem InHand.call (inHand : InHand cfg w req) (worker : w < cfg.numWorkers)
    (other : req.ID ≠ w) :
    Call cfg w { req with tries := req.tries + 1 } where
  worker := worker
  sender := inHand.sound.sender
  below := inHand.sound.below
  tries := inHand.asked other
  own_iff := by simp [other]
  unset _ := inHand.unset
  full own := absurd own other

theorem nextVictim_unrelated (call : Call cfg w req) {rand : List ℕ} :
    Ensures Unrelated (nextVictim cfg rand w x req) fun out => Chosen cfg w x req out.1 out.2 :=
  (nextVictim_spec call).weaken fun _ => False.elim

/-- The request is in the channel, or was lost because nobody would read it. -/
theorem sendReq_motion : Ensures Unrelated (sendReq cfg v req n) fun n' => n'.self = n.self ∧
    (n'.net.chanRequests = n.net.chanRequests ∨
      n'.net.chanRequests = (n.net.pushRequest v req).chanRequests) := by
  rw [sendReq]
  split
  · exact ⟨rfl, .inr rfl⟩
  · split
    · exact ⟨rfl, .inl rfl⟩
    · exact (by decide : Unrelated .sendReqCapacity)

theorem channelPush_keeps {chan : ℕ} : Ensures Unrelated (channelPush cfg chan x) fun x' =>
    ∃ stack, x' = { x with channelStack := stack } := by
  simp only [channelPush, ensures_bind, ensures_check, ensures_pure]
  exact ⟨fun _ => ⟨_, rfl⟩, fun _ => by decide⟩

theorem forgetReq_keeps : Ensures Unrelated (forgetReq cfg w req x) fun x' =>
    ∃ requested stack, x' = { x with requested := requested, channelStack := stack } := by
  simp only [forgetReq, ensures_bind, ensures_check]
  refine ⟨fun _ => ⟨fun _ => channelPush_keeps.mono ?_, fun _ => by decide⟩, fun _ => by decide⟩
  rintro x' ⟨stack, rfl⟩
  exact ⟨_, stack, rfl⟩

end Primitives

/-! ## Declining and answering -/

/-- The requests a worker holds on to, and what it knows of its subtrees, stay. -/
structure Keeps (x x' : Worker) : Prop where
  queue : x'.workSharingRequests = x.workSharingRequests
  flags : ∀ side, x'.flag side = x.flag side

section Declining

variable {cfg : Config} {w : ℕ} {n n' : Node} {x x' : Worker} {req : StealRequest} {o : Oracle}
  {hand : Option StealRequest}

theorem Keeps.refl : Keeps x x := ⟨rfl, fun _ => rfl⟩

theorem Keeps.of_flags (queue : x'.workSharingRequests = x.workSharingRequests)
    (left : x'.leftSubtreeIsIdle = x.leftSubtreeIsIdle)
    (right : x'.rightSubtreeIsIdle = x.rightSubtreeIsIdle) : Keeps x x' := by
  refine ⟨queue, fun side => ?_⟩
  cases side with
  | left => exact left
  | right => exact right

theorem Keeps.trans {x'' : Worker} (first : Keeps x x') (second : Keeps x' x'') : Keeps x x'' :=
  ⟨second.queue.trans first.queue, fun side => (second.flags side).trans (first.flags side)⟩

/-- What the handling of a request leaves. -/
structure Handled (cfg : Config) (w : ℕ) (hand : Option StealRequest) (n n' : Node) : Prop where
  keeps : Keeps n.self n'.self
  pc : n'.self.pc = n.self.pc
  disposed : Disposed cfg w n.self hand n.net n'.net

theorem forgets_handled : Ensures Unrelated (do
      let x ← forgetReq cfg w req n.self
      return { n with self := x }) (Handled cfg w hand n) := by
  rw [ensures_bind]
  refine forgetReq_keeps.mono ?_
  rintro x ⟨requested, stack, rfl⟩
  exact ⟨.of_flags rfl rfl rfl, rfl, .gone rfl⟩

theorem goQuiescent_handled (unset : potentialVictim req.victims req.ID = false) :
    Ensures Unrelated (goQuiescent cfg w req n) (Handled cfg w hand n) := by
  rw [goQuiescent]
  split
  · simp only [detectTermination, ensures_bind, ensures_check, ensures_pure]
    refine ⟨fun _ => ⟨fun _ => ⟨fun _ => ?_, fun _ => by decide⟩, fun _ => by decide⟩,
      fun _ => by decide⟩
    refine forgetReq_keeps.mono ?_
    rintro x ⟨requested, stack, rfl⟩
    exact ⟨.of_flags rfl rfl rfl, rfl, .gone rfl⟩
  · simp only [ensures_bind, ensures_check, ensures_pure]
    refine sendReq_motion.mono ?_
    rintro n' ⟨self, sent⟩
    refine ⟨fun _ => ⟨?_, ?_, ?_⟩, fun _ => by decide⟩
    · rw [self]
      exact .of_flags rfl rfl rfl
    · rw [self]
    · rcases sent with lost | sent
      · exact .gone lost
      · have failed : ({ req with state := .failed } : StealRequest).state = .failed := rfl
        exact .gaveUp failed unset sent

theorem declineStealRequest_handled (few : cfg.numWorkers ≤ 32) (worker : w < cfg.numWorkers)
    (inHand : InHand cfg w req)
    (missing : ∀ side, cfg.numWorkers ≤ child w side → n.self.flag side = true) :
    Ensures Unrelated (declineStealRequest cfg o w req n) (Handled cfg w (some req) n) := by
  have tries := inHand.sound.tries
  simp only [declineStealRequest, ensures_bind, ensures_check]
  refine ⟨fun _ => ?_, fun wrong => absurd (by omega) wrong⟩
  split
  · next own =>
    split
    · split
      · split
        · simp only [ensures_bind, ensures_check]
          exact ⟨fun _ => goQuiescent_handled inHand.unset, fun _ => by decide⟩
        · simp only [ensures_bind, ensures_check, ensures_pure]
          refine ⟨fun _ => channelPush_keeps.mono ?_, fun _ => by decide⟩
          rintro x ⟨stack, rfl⟩
          exact ⟨.of_flags rfl rfl rfl, rfl, .gone rfl⟩
      · exact goQuiescent_handled inHand.unset
    · next busy =>
      -- the request starts over
      have call := @call_own cfg w { req with tries := req.tries + 1 } few worker own
      rw [ensures_bind]
      refine (nextVictim_unrelated call).mono ?_
      rintro ⟨v, req'⟩ chosen
      dsimp only at chosen
      split
      · refine sendReq_motion.mono ?_
        rintro n' ⟨self, sent⟩
        refine ⟨self ▸ .refl, self ▸ rfl, ?_⟩
        rcases sent with lost | sent
        · exact .gone lost
        · exact .passed call chosen inHand.sound.live (.inl own) sent
      · next home =>
        rw [not_not] at home
        subst home
        obtain ⟨victims, same⟩ := chosen.same
        have flags := chosen.flags call own missing
        rw [ensures_bind, ensures_check]
        refine ⟨fun _ => forgets_handled, fun wrong => absurd ?_ wrong⟩
        have state : req'.state = req.state := by rw [same]
        rw [state]
        cases known : req.state with
        | working => rfl
        | idle => exact absurd ⟨known, flags .left, flags .right⟩ busy
        | failed => exact absurd known inHand.sound.live
  · next other =>
    have call := inHand.call worker other
    rw [ensures_bind]
    refine (nextVictim_unrelated call).mono ?_
    rintro ⟨v, req'⟩ chosen
    refine sendReq_motion.mono ?_
    rintro n' ⟨self, sent⟩
    refine ⟨self ▸ .refl, self ▸ rfl, ?_⟩
    rcases sent with lost | sent
    · exact .gone lost
    · exact .passed call chosen inHand.sound.live (.inr ⟨req, rfl, rfl⟩) sent

theorem chanRequests_sendTasks {net : Network} {owner chan : ℕ} {batch : List Task}
    {answers : ReqState} :
    (net.sendTasks owner chan batch answers).chanRequests = net.chanRequests := by
  rw [Network.sendTasks]
  split <;> rfl

/-- What is done aside from the requests. -/
structure Aside (n n' : Node) : Prop where
  keeps : Keeps n.self n'.self
  pc : n'.self.pc = n.self.pc
  requests : n'.net.chanRequests = n.net.chanRequests

theorem Aside.handled (aside : Aside n n') : Handled cfg w hand n n' :=
  ⟨aside.keeps, aside.pc, .gone aside.requests⟩

theorem sendLoot_aside : Aside n (sendLoot cfg w req n) :=
  ⟨.of_flags rfl rfl rfl, rfl, chanRequests_sendTasks⟩

theorem handleStealRequest_handled (few : cfg.numWorkers ≤ 32) (worker : w < cfg.numWorkers)
    (inHand : InHand cfg w req)
    (missing : ∀ side, cfg.numWorkers ≤ child w side → n.self.flag side = true) :
    Ensures Unrelated (handleStealRequest cfg o w req n) (Handled cfg w (some req) n) := by
  have declines := @declineStealRequest_handled cfg w n req o few worker inHand missing
  rw [handleStealRequest]
  split
  · simp only [ensures_bind, ensures_check]
    refine ⟨fun _ => ?_, fun _ => by decide⟩
    split
    · exact forgets_handled
    · exact declines
  · split
    · exact declines
    · exact sendLoot_aside.handled

theorem taskAlloc_aside : Aside n (taskAlloc n).2 := by
  rw [taskAlloc]
  split
  · exact ⟨.of_flags rfl rfl rfl, rfl, rfl⟩
  · exact ⟨.refl, rfl, rfl⟩

theorem registerFuture_keeps {f : ℕ} : Ensures Unrelated (registerFuture w f x) fun x' =>
    Keeps x x' ∧ x'.pc = x.pc := by
  rw [registerFuture]
  split
  · exact ⟨.of_flags rfl rfl rfl, rfl⟩
  · split
    · exact ⟨.of_flags rfl rfl rfl, rfl⟩
    · exact (by decide : Unrelated .splitLoopNullTask)

theorem patchFuture_aside {dup : Task} : Ensures Unrelated (patchFuture w dup n) fun out =>
    Aside n out.2 := by
  rw [patchFuture]
  split
  · exact ⟨.refl, rfl, rfl⟩
  · rw [ensures_bind]
    refine registerFuture_keeps.mono ?_
    rintro x ⟨keeps, pc⟩
    exact ⟨keeps, pc, rfl⟩

theorem splitFunc_unrelated {pending : ℕ} {range : Loops.LoopRange} :
    Ensures Unrelated (Loops.splitFunc cfg.split cfg.numWorkers pending range) fun _ => True := by
  cases cfg.split with
  | half => trivial
  | guided =>
    simp only [Loops.splitFunc, Loops.splitGuided, ensures_bind, ensures_check, ensures_ite,
      ensures_pure]
    exact ⟨fun _ => ⟨fun _ => trivial, fun _ => trivial⟩, fun _ => by decide⟩
  | adaptive =>
    simp only [Loops.splitFunc, Loops.splitAdaptive, ensures_bind, ensures_check, ensures_pure]
    exact ⟨fun _ => ⟨fun _ => trivial, fun _ => by decide⟩, fun _ => by decide⟩

theorem splitLoop_aside {task : Task} : Ensures Unrelated (splitLoop cfg o w task req n)
    fun out => Aside n out.2 := by
  have alloc := @taskAlloc_aside n
  simp only [splitLoop, ensures_bind, ensures_check]
  refine ⟨fun _ => splitFunc_unrelated.mono fun split _ => ?_, fun _ => by decide⟩
  refine patchFuture_aside.mono ?_
  rintro ⟨dup, n'⟩ aside
  refine ⟨(alloc.keeps.trans aside.keeps).trans (.of_flags rfl rfl rfl),
    aside.pc.trans alloc.pc, ?_⟩
  rw [chanRequests_sendTasks]
  exact aside.requests.trans alloc.requests

theorem Aside.shortens (aside : Aside n n') {split : ℤ} :
    Aside n { n' with self := n'.self.shortenCurrent split } := by
  rw [Worker.shortenCurrent]
  split
  · exact aside
  · exact ⟨aside.keeps.trans (.of_flags rfl rfl rfl), aside.pc, aside.requests⟩

theorem handle_handled (few : cfg.numWorkers ≤ 32) (worker : w < cfg.numWorkers)
    (inHand : InHand cfg w req)
    (missing : ∀ side, cfg.numWorkers ≤ child w side → n.self.flag side = true) :
    Ensures Unrelated (handle cfg o w req n) fun out => Handled cfg w (some req) n out.2 := by
  rw [handle]
  split
  · rw [ensures_bind]
    exact handleStealRequest_handled few worker inHand missing
  · dsimp only
    split
    · split
      · rw [ensures_bind]
        refine splitLoop_aside.mono ?_
        rintro ⟨split, n'⟩ aside
        exact aside.shortens.handled
      · rw [ensures_bind]
        refine forgetReq_keeps.mono ?_
        rintro x ⟨requested, stack, rfl⟩
        exact ⟨.of_flags rfl rfl rfl, rfl, .gone rfl⟩
    · split
      · next failed => exact absurd failed inHand.sound.live
      · rw [ensures_bind]
        exact declineStealRequest_handled few worker inHand missing

end Declining

/-! ## Program points -/

/-- Program points without a request in hand or a list of channels to look into. -/
def Pc.simple : Pc → Bool
  | .handle _ _ | .recvReqFor _ _ => false
  | _ => true

section Points

variable {cfg : Config} {w i : ℕ} {n n' : Node} {x x' : Worker} {req req' : StealRequest}
  {o : Oracle}
  {pc : Pc} {site : Site} {k : ReqCont}

theorem Pc.hand_of_simple (simple : pc.simple = true) : pc.hand = none := by
  cases pc with
  | handle k req => cases simple
  | _ => rfl

theorem Pc.scanOk_of_simple {flag : Side → Bool} (simple : pc.simple = true) :
    pc.scanOk cfg w flag := by
  cases pc with
  | recvReqFor k scan => cases simple
  | _ => trivial

theorem Keeps.seesIdle (keeps : Keeps x x') : x'.SeesIdle w i ↔ x.SeesIdle w i := by
  simp only [Worker.SeesIdle, keeps.flags]

theorem Keeps.holds (keeps : Keeps x x') (holds : Holds cfg w x) : Holds cfg w x' := by
  refine ⟨fun req member => holds.queue req (keeps.queue ▸ member), fun side missing => ?_⟩
  rw [keeps.flags]
  exact holds.missing side missing

theorem Keeps.chosen (keeps : Keeps x x') {v : ℕ} (chosen : Chosen cfg w x' req v req') :
    Chosen cfg w x req v req' where
  same := chosen.same
  target := chosen.target
  subset := chosen.subset
  self := chosen.self
  choice := chosen.choice
  limit := chosen.limit
  pruned more j worker := by
    rw [← keeps.seesIdle]
    exact chosen.pruned more j worker
  empty := chosen.empty

theorem Keeps.goto : Keeps n.self (n.goto pc).self := .of_flags rfl rfl rfl

theorem Keeps.runTask {t : Task} {ret : Ret} : Keeps n.self (Runtime.runTask t ret n).self :=
  .of_flags rfl rfl rfl

/-- A step after which the worker has no request in its hand. -/
theorem Flows.disposes (holds : Holds cfg w n'.self) (simple : n'.self.pc.simple = true)
    (disposed : Disposed cfg w n.self n.self.pc.hand n.net n'.net) : Flows cfg w n n' where
  fit := by
    refine ⟨fun req held => ?_, holds, Pc.scanOk_of_simple simple⟩
    rw [Pc.hand_of_simple simple] at held
    cases held
  motion := .disposed disposed (Pc.hand_of_simple simple)

/-- A step that leaves the requests alone. -/
theorem Flows.keeps (holds : Holds cfg w n.self) (keeps : Keeps n.self n'.self)
    (simple : n'.self.pc.simple = true) (requests : n'.net.chanRequests = n.net.chanRequests) :
    Flows cfg w n n' :=
  .disposes (keeps.holds holds) simple (.gone requests)

theorem Flows.goes (holds : Holds cfg w n.self) (simple : pc.simple = true) :
    Flows cfg w n (n.goto pc) :=
  .keeps holds .goto simple rfl

theorem Handled.goes (handled : Handled cfg w n.self.pc.hand n n') (holds : Holds cfg w n.self)
    (simple : pc.simple = true) : Flows cfg w n (n'.goto pc) :=
  .disposes ((handled.keeps.trans .goto).holds holds) simple handled.disposed

/-! ### Receiving requests -/

theorem holdOn_holds (holds : Holds cfg w x)
    (last : req.state = .failed ∧ potentialVictim req.victims req.ID = false) :
    Ensures Unrelated (holdOn cfg w req x) fun x' => Holds cfg w x' ∧ x'.pc = x.pc := by
  have queue : ∀ old ∈ x.workSharingRequests ++ [req],
      old.state = .failed ∧ potentialVictim old.victims old.ID = false := by
    intro old member
    rcases List.mem_append.mp member with member | member
    · exact holds.queue old member
    · rwa [List.mem_singleton.mp member]
  simp only [holdOn, ensures_bind, ensures_check, ensures_ite, ensures_pure]
  refine ⟨fun _ => ⟨fun _ => ⟨fun _ => ⟨fun _ => ⟨⟨queue, ?_⟩, trivial⟩, fun _ => by decide⟩,
    fun _ => by decide⟩, fun _ => ⟨fun _ => ⟨fun _ => ⟨⟨queue, ?_⟩, trivial⟩, fun _ => by decide⟩,
    fun _ => by decide⟩⟩, fun _ => by decide⟩
  · intro side missing
    cases side with
    | left => rfl
    | right => exact holds.missing .right missing
  · intro side missing
    cases side with
    | left => exact holds.missing .left missing
    | right => rfl

theorem Flows.takes (holds : Holds cfg w n.self) {rest : List StealRequest}
    (first : n.net.chanRequests i = req :: rest) (fits : InChannel cfg i req)
    (live : req.state ≠ .failed) (behalf : i = w ∨ req.ID ≠ i ∧ n.self.SeesIdle w i) :
    Flows cfg w n (received w k req { n with net := n.net.dropRequest i }) := by
  obtain ⟨taken, after, kind⟩ := received_eq w k req { n with net := n.net.dropRequest i }
  obtain ⟨state, rfl, stays⟩ :
      ∃ state, taken = { req with state := state } ∧ state ≠ .failed := by
    rcases kind with same | ⟨-, -, -, same⟩
    · exact ⟨req.state, same, live⟩
    · exact ⟨.idle, same, by decide⟩
  rw [after]
  have sound := fits.sound live
  have inHand : InHand cfg w { req with state := state } := by
    refine ⟨fits.unset, ⟨stays, sound.sender, sound.below, sound.tries⟩, fun other => ?_⟩
    rcases behalf with rfl | ⟨foreign, -⟩
    · exact fits.asked live other
    · exact fits.asked live foreign
  refine ⟨⟨fun req' held => ?_, Keeps.goto.holds holds, trivial⟩,
    .took first rfl fun req' held => ?_⟩
  · cases held
    exact inHand
  · cases held
    exact ⟨live, ⟨state, rfl⟩, behalf⟩

theorem popFailed_flows (holds : Holds cfg w n.self) : Flows cfg w n (popFailed cfg site n) := by
  cases site with
  | schedule => exact .goes holds rfl
  | barrier =>
    simp only [popFailed]
    split
    · exact .keeps holds (.of_flags rfl rfl rfl) rfl rfl
    · split
      · exact .goes holds rfl
      · exact .goes holds rfl
  | force f => exact .goes holds rfl

theorem declined_flows (holds : Holds cfg w n.self)
    (handled : Handled cfg w n.self.pc.hand n n') : Flows cfg w n (declined site n') := by
  rw [declined]
  split
  · exact handled.goes holds rfl
  · exact handled.goes holds rfl

theorem noRequest_flows (holds : Holds cfg w n.self) : Flows cfg w n (noRequest cfg k n) := by
  cases k with
  | push | poll | force f => exact .goes holds rfl
  | pop site task =>
    cases task with
    | none => exact popFailed_flows holds
    | some t => exact .keeps holds (.of_flags rfl rfl rfl) rfl rfl
  | declineAll site => exact declined_flows holds ⟨.refl, rfl, .gone rfl⟩

theorem recvReqStep_flows (holds : Holds cfg w n.self)
    (fits : ∀ i, ∀ req ∈ n.net.chanRequests i, InChannel cfg i req)
    (here : n.self.pc = .recvReq k) :
    Ensures Unrelated (recvReqStep cfg w k n) (Flows cfg w n) := by
  rw [recvReqStep]
  split
  · next req rest first =>
    have fit := fits w req (first ▸ List.mem_cons_self)
    split
    · next failed =>
      rw [ensures_bind]
      refine (holdOn_holds holds ⟨failed, fit.unset⟩).mono ?_
      rintro x ⟨holds, stays⟩
      have pc : x.pc = .recvReq k := stays.trans here
      refine ⟨⟨fun req' held => ?_, holds, ?_⟩, .took first rfl fun req' held => ?_⟩
      · rw [pc] at held
        cases held
      · rw [pc]
        trivial
      · rw [pc] at held
        cases held
    · next live => exact .takes holds first fit live (.inl rfl)
  · split
    · exact noRequest_flows holds
    · refine ⟨⟨fun req' held => ?_, Keeps.goto.holds holds, ?_⟩,
        .disposed (.gone rfl) rfl⟩
      · cases held
      · exact onBehalf_scanOk cfg w n.self k

theorem recvReqForStep_flows (fit : WorkerFit cfg w n.self) {scan : List ℕ}
    (fits : ∀ i, ∀ req ∈ n.net.chanRequests i, InChannel cfg i req)
    (here : n.self.pc = .recvReqFor k scan)
    (behalf : ∀ i ∈ scan, ∀ req ∈ n.net.chanRequests i, req.state ≠ .failed ∧ req.ID ≠ i) :
    Flows cfg w n (recvReqForStep cfg w k scan n) := by
  have scanOk := fit.scan
  rw [here] at scanOk
  cases scan with
  | nil => exact noRequest_flows fit.holds
  | cons i rest =>
    simp only [recvReqForStep]
    obtain ⟨-, side, flag, -, below⟩ := scanOk i List.mem_cons_self
    split
    · next req reqs first =>
      have member : req ∈ n.net.chanRequests i := first ▸ List.mem_cons_self
      obtain ⟨live, foreign⟩ := behalf i List.mem_cons_self req member
      exact .takes fit.holds first (fits i req member) live (.inr ⟨foreign, side, flag, below⟩)
    · refine ⟨⟨fun req' held => ?_, Keeps.goto.holds fit.holds, ?_⟩,
        .disposed (.gone rfl) rfl⟩
      · cases held
      · exact fun j member => scanOk j (List.mem_cons_of_mem i member)

/-! ### Handling requests -/

theorem handled_flows {run : Checked Node} {next : Node → Node} (holds : Holds cfg w n.self)
    (handles : Ensures Unrelated run (Handled cfg w n.self.pc.hand n))
    (goes : ∀ n', ∃ pc, pc.simple = true ∧ next n' = n'.goto pc) :
    Ensures Unrelated (do let n ← run; return next n) (Flows cfg w n) := by
  rw [ensures_bind]
  refine handles.mono fun n' handled => ?_
  obtain ⟨pc, simple, after⟩ := goes n'
  rw [ensures_pure, after]
  exact handled.goes holds simple

theorem popHandle_flows (few : cfg.numWorkers ≤ 32) (worker : w < cfg.numWorkers)
    (holds : Holds cfg w n.self) (inHand : InHand cfg w req)
    (hand : n.self.pc.hand = some req) {task : Option Task} :
    Ensures Unrelated (popHandle cfg o w site task req n) (Flows cfg w n) := by
  rw [popHandle]
  split
  · split
    · rw [ensures_bind]
      refine splitLoop_aside.mono ?_
      rintro ⟨split, n'⟩ aside
      exact aside.handled.goes holds rfl
    · rw [ensures_bind]
      refine forgetReq_keeps.mono ?_
      rintro x ⟨requested, stack, rfl⟩
      exact .keeps holds (.of_flags rfl rfl rfl) rfl rfl
  · refine handled_flows holds ?_ fun _ => ⟨_, rfl, rfl⟩
    rw [hand]
    exact handleStealRequest_handled few worker inHand holds.missing

theorem handleStep_flows (few : cfg.numWorkers ≤ 32) (worker : w < cfg.numWorkers)
    (fit : WorkerFit cfg w n.self) (here : n.self.pc = .handle k req) :
    Ensures Unrelated (handleStep cfg o w k req n) (Flows cfg w n) := by
  have hand : n.self.pc.hand = some req := by rw [here]; rfl
  have inHand := fit.hand req hand
  have answers : Ensures Unrelated (handleStealRequest cfg o w req n)
      (Handled cfg w n.self.pc.hand n) := by
    rw [hand]
    exact handleStealRequest_handled few worker inHand fit.holds.missing
  cases k with
  | push | force f => exact handled_flows fit.holds answers fun _ => ⟨_, rfl, rfl⟩
  | poll =>
    simp only [handleStep, ensures_bind]
    refine (handle_handled few worker inHand fit.holds.missing).mono fun out handled => ?_
    rw [← hand] at handled
    exact handled.goes fit.holds rfl
  | pop site task => exact popHandle_flows few worker fit.holds inHand hand
  | declineAll site =>
    simp only [handleStep, ensures_bind]
    refine (declineStealRequest_handled few worker inHand fit.holds.missing).mono
      fun n' handled => ?_
    rw [← hand] at handled
    exact declined_flows fit.holds handled

/-! ### Sharing work -/

theorem isChild_iff :
    isChild cfg w i = true ↔ cfg.leftChild w = some i ∨ cfg.rightChild w = some i := by
  simp [isChild]

/-- The last request of a child is served, or kept. -/
theorem handle_aside (last : req.state = .failed) (child : isChild cfg w req.ID = true) :
    Ensures Unrelated (handle cfg o w req n) fun out => Aside n out.2 := by
  have foreign : req.ID ≠ w := by
    rcases isChild_iff.mp child with left | right
    · have := ((leftChild_eq_some cfg.someWorker).mp left).1
      omega
    · have := ((rightChild_eq_some cfg.someWorker).mp right).1
      omega
  simp only [handle, if_pos foreign, if_pos last]
  split
  · next some =>
    rw [ensures_bind, handleStealRequest, if_neg foreign, if_neg some]
    exact sendLoot_aside
  · split
    · rw [ensures_bind]
      refine splitLoop_aside.mono ?_
      rintro ⟨split, n'⟩ aside
      exact aside.shortens
    · simp only [ensures_bind, ensures_check, ensures_pure]
      exact ⟨fun _ => ⟨.refl, rfl, rfl⟩, fun _ => by decide⟩

theorem clearLifeline_holds (holds : Holds cfg w x) (child : isChild cfg w i = true) :
    Ensures Unrelated (clearLifeline cfg w i x) fun x' => Holds cfg w x' ∧ x'.pc = x.pc := by
  have queue : ∀ old ∈ x.workSharingRequests.tail,
      old.state = .failed ∧ potentialVictim old.victims old.ID = false :=
    fun old member => holds.queue old (List.mem_of_mem_tail member)
  simp only [clearLifeline, ensures_bind, ensures_check, ensures_ite, ensures_pure]
  refine ⟨fun left => ⟨fun _ => ⟨⟨queue, fun side missing => ?_⟩, trivial⟩, fun _ => by decide⟩,
    fun other => ⟨fun _ => ⟨⟨queue, fun side missing => ?_⟩, trivial⟩, fun _ => by decide⟩⟩
  · obtain ⟨same, inside⟩ := (leftChild_eq_some cfg.someWorker).mp left
    cases side with
    | left =>
      simp only [TokenProtocol.child] at missing
      omega
    | right => exact holds.missing .right missing
  · have right := (isChild_iff.mp child).resolve_left other
    obtain ⟨same, inside⟩ := (rightChild_eq_some cfg.someWorker).mp right
    cases side with
    | left => exact holds.missing .left missing
    | right =>
      simp only [TokenProtocol.child] at missing
      omega

theorem shareRound_holds (holds : Holds cfg w n.self) :
    Ensures Unrelated (shareRound cfg o w n) fun out => Holds cfg w out.2.self ∧
      out.2.self.pc = n.self.pc ∧ out.2.net.chanRequests = n.net.chanRequests := by
  rw [shareRound]
  split
  · exact ⟨holds, rfl, rfl⟩
  · next req rest queue =>
    have last := (holds.queue req (queue ▸ List.mem_cons_self)).1
    simp only [ensures_bind, ensures_check]
    refine ⟨fun child => (handle_aside last child).mono ?_, fun _ => by decide⟩
    rintro ⟨served, n'⟩ aside
    have kept := aside.keeps.holds holds
    cases served with
    | false => exact ⟨kept, aside.pc, aside.requests⟩
    | true =>
      simp only [↓reduceIte, ensures_bind, ensures_pure]
      refine (clearLifeline_holds kept child).mono ?_
      rintro x ⟨holds, stays⟩
      exact ⟨holds, stays.trans aside.pc, aside.requests⟩

theorem exitFn_flows (holds : Holds cfg w n'.self)
    (requests : n'.net.chanRequests = n.net.chanRequests) :
    Ensures Unrelated (exitFn w n') (Flows cfg w n) := by
  simp only [exitFn, ensures_bind, ensures_check, ensures_pure]
  refine ⟨fun _ => ⟨fun _ => ⟨fun _ => ?_, fun _ => by decide⟩, fun _ => by decide⟩,
    fun _ => by decide⟩
  exact .disposes (Keeps.goto.holds holds) rfl (.gone requests)

theorem shareDone_flows {k : ShareCont} (holds : Holds cfg w n'.self)
    (requests : n'.net.chanRequests = n.net.chanRequests) :
    Ensures Unrelated (shareDone cfg w k n') (Flows cfg w n) := by
  cases k with
  | push | poll | pop site task => exact .disposes (Keeps.goto.holds holds) rfl (.gone requests)
  | got site t => exact .disposes (Keeps.runTask.holds holds) rfl (.gone requests)
  | exit addr => exact exitFn_flows holds requests

theorem shareStep_flows {k : ShareCont} (holds : Holds cfg w n.self)
    (here : n.self.pc = .shareWork k) :
    Ensures Unrelated (shareStep cfg o w k n) (Flows cfg w n) := by
  rw [shareStep, ensures_bind]
  refine (shareRound_holds holds).mono ?_
  rintro ⟨more, n'⟩ ⟨holds, stays, requests⟩
  cases more with
  | false => exact shareDone_flows holds requests
  | true => exact .disposes holds (by rw [stays, here]; rfl) (.gone requests)

/-! ### Sending requests and receiving tasks -/

theorem adaptStrategy_keeps : Keeps x (adaptStrategy cfg x) ∧ (adaptStrategy cfg x).pc = x.pc := by
  rw [adaptStrategy]
  split
  · exact ⟨.of_flags rfl rfl rfl, rfl⟩
  · exact ⟨.refl, rfl⟩

theorem channelPop_keeps : Ensures Unrelated (channelPop x) fun out =>
    Keeps x out.2 ∧ out.2.pc = x.pc := by
  rw [channelPop]
  split
  · exact (by decide : Unrelated .boundedStackPop)
  · exact ⟨.of_flags rfl rfl rfl, rfl⟩

theorem trySendStealRequest_handled (few : cfg.numWorkers ≤ 32) (worker : w < cfg.numWorkers)
    {idle : Bool} :
    Ensures Unrelated (trySendStealRequest cfg o w idle n) (Handled cfg w n.self.pc.hand n) := by
  rw [trySendStealRequest]
  split
  · obtain ⟨adapts, before⟩ := @adaptStrategy_keeps cfg n.self
    simp only [ensures_bind]
    refine channelPop_keeps.mono ?_
    rintro ⟨chan, x⟩ ⟨pops, after⟩
    have keeps : Keeps n.self x := adapts.trans pops
    have live : (if idle then .idle else .working) ≠ ReqState.failed := by cases idle <;> decide
    have call := @call_own cfg w ⟨chan, w, 0, initVictims cfg.numWorkers,
      if idle then .idle else .working, x.stealhalf⟩ few worker rfl
    refine (nextVictim_unrelated call).mono ?_
    rintro ⟨v, req⟩ chosen
    refine sendReq_motion.mono ?_
    rintro n' ⟨self, sent⟩
    refine ⟨?_, ?_, ?_⟩
    · refine keeps.trans ?_
      rw [self]
      exact .of_flags rfl rfl rfl
    · rw [self]
      exact after.trans before
    · rcases sent with lost | sent
      · exact .gone lost
      · exact .passed call (keeps.chosen chosen) live (.inl rfl) sent
  · exact ⟨.refl, rfl, .gone rfl⟩

theorem taskMissing_flows (holds : Holds cfg w n.self)
    (handled : Handled cfg w n.self.pc.hand n n') :
    Ensures Unrelated (taskMissing cfg site n') (Flows cfg w n) := by
  have idles (site : Site) : Ensures Unrelated (do
      check (n'.self.deque = []) .idleDequeEmpty
      check (n'.self.requested ≠ 0) .idleRequested
      if cfg.backoff = .sleepExp ∧ n'.self.waitingForTasks ∧ site = .schedule then
        return n'.goto (.recvTask site 0)
      else return n'.goto (.recvReq (.declineAll site))) (Flows cfg w n) := by
    simp only [ensures_bind, ensures_check, ensures_ite, ensures_pure]
    exact ⟨fun _ => ⟨fun _ => ⟨fun _ => handled.goes holds rfl, fun _ => handled.goes holds rfl⟩,
      fun _ => by decide⟩, fun _ => by decide⟩
  cases site with
  | force f => exact handled.goes holds rfl
  | schedule => exact idles .schedule
  | barrier => exact idles .barrier

theorem sendStep_flows (few : cfg.numWorkers ≤ 32) (worker : w < cfg.numWorkers)
    (holds : Holds cfg w n.self) {k : SendCont} :
    Ensures Unrelated (sendStep cfg o w k n) (Flows cfg w n) := by
  cases k with
  | enter site =>
    simp only [sendStep, ensures_bind]
    refine (trySendStealRequest_handled few worker).mono fun n' handled => ?_
    simp only [ensures_ite, ensures_bind, ensures_check, ensures_pure]
    exact ⟨fun _ => ⟨fun _ => handled.goes holds rfl, fun _ => by decide⟩,
      fun _ => handled.goes holds rfl⟩
  | failed site =>
    simp only [sendStep, ensures_bind]
    exact (trySendStealRequest_handled few worker).mono fun n' handled =>
      taskMissing_flows holds handled
  | again f | early site t =>
    exact handled_flows holds (trySendStealRequest_handled few worker) fun _ => ⟨_, rfl, rfl⟩

theorem receivedTask_unrelated {chan : ℕ} :
    Ensures Unrelated (receivedTask cfg chan x) (Keeps x) := by
  simp only [receivedTask, ensures_bind]
  refine channelPush_keeps.mono ?_
  rintro x' ⟨stack, rfl⟩
  simp only [ensures_bind, ensures_check, ensures_ite, ensures_pure]
  have keeps (requested dropped : ℤ) (waiting : Bool) : Keeps x { x with
      channelStack := stack, requested := requested, droppedStealRequests := dropped
      waitingForTasks := waiting } := .of_flags rfl rfl rfl
  refine ⟨fun _ => ⟨fun _ => ⟨fun _ => ⟨fun _ => ⟨fun _ => keeps _ _ _, ?_⟩, ?_⟩, ?_⟩, ?_⟩,
    fun _ => ⟨fun _ => ⟨fun _ => ⟨fun _ => ⟨fun _ => keeps _ _ _, ?_⟩, ?_⟩, ?_⟩,
      fun _ => ⟨fun _ => ⟨fun _ => keeps _ _ _, ?_⟩, ?_⟩⟩⟩
  all_goals exact fun _ => by decide

theorem unpack_unrelated {message : Message} :
    Ensures Unrelated (unpack cfg w site message x) fun x' => Keeps x x' ∧ x'.pc.simple = true := by
  cases message with
  | exit addr => exact ⟨.of_flags rfl rfl rfl, rfl⟩
  | tasks batch answers =>
    cases batch with
    | nil => trivial
    | cons t rest =>
      simp only [unpack]
      split
      · simp only [ensures_bind, ensures_check, ensures_pure]
        exact ⟨fun _ => ⟨.of_flags rfl rfl rfl, rfl⟩, fun _ => by decide⟩
      · exact ⟨.of_flags rfl rfl rfl, rfl⟩

theorem recvTaskStep_flows (holds : Holds cfg w n.self) (here : n.self.pc = .recvTask site i) :
    Ensures Unrelated (recvTaskStep cfg w site i n) (Flows cfg w n) := by
  rw [recvTaskStep]
  split
  · simp only [ensures_bind, ensures_await, ensures_pure]
    exact fun _ => .keeps holds (.of_flags rfl rfl rfl) (by rw [here]; rfl) rfl
  · split
    · simp only [ensures_bind]
      refine receivedTask_unrelated.mono fun x received => unpack_unrelated.mono ?_
      rintro x' ⟨unpacks, simple⟩
      exact .keeps holds (received.trans unpacks) simple rfl
    · split
      · exact .goes holds rfl
      · exact .goes holds rfl

/-! ### Everything else -/

theorem popStep_flows (holds : Holds cfg w n.self) : Flows cfg w n (popStep cfg site n) := by
  simp only [popStep]
  split
  · exact .keeps holds (.of_flags rfl rfl rfl) rfl rfl
  · split
    · exact .keeps holds (.of_flags rfl rfl rfl) rfl rfl
    · exact .keeps holds (.of_flags rfl rfl rfl) rfl rfl

theorem peekStep_flows (holds : Holds cfg w n.self) {scan : List ℕ} :
    Flows cfg w n (peekStep scan n) := by
  cases scan with
  | nil => exact .goes holds rfl
  | cons i rest =>
    rw [peekStep]
    split
    · exact .goes holds rfl
    · exact .goes holds rfl

theorem write_unrelated {f : LazyFuture} {value : Value} :
    Ensures Unrelated (f.write value) fun _ => True := by
  simp only [LazyFuture.write, ensures_bind, ensures_check, ensures_ite, ensures_pure, implies_true,
    true_and, and_true]
  exact fun _ => ⟨fun _ => ⟨fun _ _ => by decide, fun _ => by decide⟩, fun _ => by decide⟩

theorem force_unrelated {f : LazyFuture} : Ensures Unrelated f.force fun _ => True := by
  have collects (g : LazyFuture) (data : Option Value) :
      Ensures Unrelated (g.collect data) fun _ => True := by
    rw [LazyFuture.collect]
    split
    · simp only [ensures_bind, ensures_check, ensures_pure, implies_true, true_and]
      exact ⟨fun _ _ => by decide, fun _ => by decide⟩
    · rw [ensures_bind, ensures_check]
      refine ⟨fun _ => ?_, fun _ => by decide⟩
      split
      · trivial
      · exact (by decide : Unrelated .futureUnion)
  have receives : Ensures Unrelated f.receive fun _ => True := by
    rw [LazyFuture.receive]
    split
    · simp only [ensures_bind, ensures_check]
      refine ⟨fun _ => ⟨fun _ => ?_, fun _ => by decide⟩, fun _ => by decide⟩
      split <;> trivial
    · trivial
  rw [LazyFuture.force, ensures_bind]
  refine receives.mono fun out _ => ?_
  cases out with
  | none => trivial
  | some pair =>
    rw [ensures_bind]
    exact (collects pair.2 pair.1).mono fun _ _ => trivial

theorem forceStep_flows (holds : Holds cfg w n.self) {f : Awaited} {point : ReadyPoint}
    {ready : Bool} : Ensures Unrelated (forceStep f point ready n) (Flows cfg w n) := by
  have next : (point.next f).simple = true := by cases point <;> rfl
  cases f with
  | foreign =>
    cases ready with
    | true => exact .goes holds rfl
    | false => exact .goes holds next
  | own i =>
    simp only [forceStep, ensures_bind]
    refine force_unrelated.mono fun content _ => ?_
    cases content with
    | none => exact .goes holds next
    | some content => exact .keeps holds (.of_flags rfl rfl rfl) rfl rfl

theorem notifyChild_aside {c : Option ℕ} :
    Ensures Unrelated (notifyChild c n) (Aside n) := by
  cases c with
  | none => exact ⟨.refl, rfl, rfl⟩
  | some c =>
    simp only [notifyChild, ensures_bind, ensures_check, ensures_pure]
    have alloc := @taskAlloc_aside n
    exact ⟨fun _ => ⟨alloc.keeps, alloc.pc, alloc.requests⟩, fun _ => by decide⟩

theorem newTask_aside {loop : Option (ℤ × ℤ)} {future : Bool} :
    Aside n (newTask w loop future n).2 := by
  have alloc := @taskAlloc_aside n
  refine ⟨alloc.keeps, alloc.pc, ?_⟩
  cases future with
  | false => exact alloc.requests
  | true => exact alloc.requests

theorem spawn_flows (holds : Holds cfg w n.self) {loop : Option (ℤ × ℤ)} {future : Bool} :
    Ensures Unrelated (userStep w (.spawn loop future) n) (Flows cfg w n) := by
  have aside := @newTask_aside w n loop future
  simp only [userStep, push, ensures_bind]
  split
  · simp only [ensures_bind, ensures_check, ensures_pure]
    exact ⟨fun _ => .keeps holds (aside.keeps.trans (.of_flags rfl rfl rfl)) rfl aside.requests,
      fun _ => by decide⟩
  · exact .keeps holds (aside.keeps.trans (.of_flags rfl rfl rfl)) rfl aside.requests

theorem finish_flows (holds : Holds cfg w n.self) {value : Value} :
    Ensures Unrelated (finish value n) (Flows cfg w n) := by
  have returns (net : Network) (frame : Frame) (rest : List Frame)
      (requests : net.chanRequests = n.net.chanRequests) : Flows cfg w n
        ⟨n.self.popFrame frame rest, { net with finished := net.finished ++ [frame.task.id] }⟩ := by
    refine .keeps holds (.of_flags rfl rfl rfl) ?_ requests
    change frame.ret.next.simple = true
    cases frame.ret <;> rfl
  rw [finish]
  split
  · trivial
  · next frame rest _ =>
    split
    · exact returns _ _ _ rfl
    · simp only [ensures_bind, ensures_await, ensures_pure]
      exact fun _ => write_unrelated.mono fun written _ => returns _ _ _ rfl

theorem reduce_flows (holds : Holds cfg w n.self) (here : n.self.pc = .user) :
    Flows cfg w n (reduce w n) := by
  have futures (rest : List ℕ) : Keeps n.self (n.self.setCurrentFutures rest) := by
    rw [Worker.setCurrentFutures]
    split <;> exact .of_flags rfl rfl rfl
  rw [reduce]
  split
  · exact .keeps holds .refl (by rw [here]; rfl) rfl
  · next f rest _ =>
    dsimp only
    split
    · exact .keeps holds ((futures rest).trans (.of_flags rfl rfl rfl)) rfl rfl
    · exact .keeps holds ((futures rest).trans (.of_flags rfl rfl rfl)) rfl rfl

theorem asyncFor_flows (holds : Holds cfg w n.self) (here : n.self.pc = .user) :
    Ensures Unrelated (userStep w .asyncFor n) (Flows cfg w n) := by
  simp only [userStep, asyncFor, ensures_bind]
  split
  · exact (by decide : Unrelated .asyncForSplittable)
  · simp only [ensures_bind, ensures_check, ensures_pure]
    exact ⟨fun _ => ⟨fun _ => .keeps holds (.of_flags rfl rfl rfl) (by rw [here]; rfl) rfl,
      fun _ => by decide⟩, fun _ => by decide⟩

theorem iterate_flows (holds : Holds cfg w n.self) :
    Ensures Unrelated (userStep w .iterate n) (Flows cfg w n) := by
  simp only [userStep, iterate, ensures_bind]
  split
  · trivial
  · split
    · trivial
    · simp only [ensures_bind, ensures_await, ensures_pure]
      exact fun _ => .keeps holds (.of_flags rfl rfl rfl) rfl rfl

theorem userStep_flows (holds : Holds cfg w n.self) (here : n.self.pc = .user) {act : UserAct} :
    Ensures Unrelated (userStep w act n) (Flows cfg w n) := by
  cases act with
  | spawn loop future => exact spawn_flows holds
  | poll => exact .goes holds rfl
  | await f =>
    cases f with
    | foreign => exact .goes holds rfl
    | own i =>
      simp only [userStep, ensures_bind, ensures_await, ensures_pure]
      exact fun _ => .keeps holds (.of_flags rfl rfl rfl) rfl rfl
  | reduce => exact reduce_flows holds here
  | barrier =>
    rw [userStep]
    split
    · exact .keeps holds .refl (by rw [here]; rfl) rfl
    · simp only [ensures_bind, ensures_check, ensures_pure]
      exact ⟨fun _ => .goes holds rfl, fun _ => by decide⟩
  | exit =>
    simp only [userStep, ensures_bind, ensures_await]
    exact fun _ => exitFn_flows holds rfl
  | asyncFor => exact asyncFor_flows holds here
  | iterate => exact iterate_flows holds
  | finish value => exact finish_flows holds

/-- A step of worker `w`, given that the requests in the channels it looks into on behalf
of others are neither last requests nor requests of those others. -/
theorem wstep_flows (few : cfg.numWorkers ≤ 32) (worker : w < cfg.numWorkers)
    (fit : WorkerFit cfg w n.self)
    (fits : ∀ i, ∀ req ∈ n.net.chanRequests i, InChannel cfg i req)
    (behalf : ∀ k scan, n.self.pc = .recvReqFor k scan → ∀ i ∈ scan,
      ∀ req ∈ n.net.chanRequests i, req.state ≠ .failed ∧ req.ID ≠ i) (c : Choice) :
    Ensures Unrelated (wstep cfg w c n) (Flows cfg w n) := by
  have holds := fit.holds
  cases here : n.self.pc with
  | user =>
    simp only [wstep, here]
    exact userStep_flows holds here
  | pop site =>
    simp only [wstep, here]
    exact popStep_flows holds
  | shareWork k =>
    simp only [wstep, here]
    exact shareStep_flows holds here
  | peekReq scan =>
    simp only [wstep, here]
    exact peekStep_flows holds
  | recvReq k =>
    simp only [wstep, here]
    exact recvReqStep_flows holds fits here
  | recvReqFor k scan =>
    simp only [wstep, here]
    exact recvReqForStep_flows fit fits here (behalf k scan here)
  | handle k req =>
    simp only [wstep, here]
    exact handleStep_flows few worker fit here
  | trySend k =>
    simp only [wstep, here]
    exact sendStep_flows few worker holds
  | recvTask site i =>
    simp only [wstep, here]
    exact recvTaskStep_flows holds here
  | forceReady f point =>
    simp only [wstep, here]
    exact forceStep_flows holds
  | barrierExit =>
    simp only [wstep, here, ensures_bind, ensures_check, ensures_pure]
    exact ⟨fun _ => .goes holds rfl, fun _ => by decide⟩
  | exitLeft =>
    simp only [wstep, here, ensures_bind]
    exact notifyChild_aside.mono fun n' aside => aside.handled.goes holds rfl
  | exitRight =>
    simp only [wstep, here, ensures_bind]
    exact notifyChild_aside.mono fun n' aside =>
      .keeps holds (aside.keeps.trans (.of_flags rfl rfl rfl)) rfl aside.requests
  | finished =>
    simp only [wstep, here]
    trivial

end Points

/-! ## Runs -/

section Runs

variable {cfg : Config} {s : State} {w i : ℕ} {n : Node} {req : StealRequest}

structure Fit (cfg : Config) (s : State) : Prop where
  workers : ∀ w < cfg.numWorkers, WorkerFit cfg w (s.workers w)
  channels : ∀ i, ∀ req ∈ s.net.chanRequests i, InChannel cfg i req

/-- The requests in the channel of a worker that waits are not its own, nor last ones. -/
theorem Refines.waiting_channel (ok : Refines cfg s) (worker : i < cfg.numWorkers)
    (waiting : (s.workers i).waitingForTasks = true) (member : req ∈ s.net.chanRequests i) :
    req.state ≠ .failed ∧ req.ID ≠ i := by
  have live : req.state ≠ .failed := fun failed =>
    absurd (waiting.symm.trans (ok.failed_in_channel member failed).2) (by simp)
  refine ⟨live, fun own => live ?_⟩
  have inv := TokenProtocol.reachable_inv cfg.someSteal ok.ring
  obtain ⟨-, -, -, failed⟩ := (inv.account i worker).waits waiting
  refine failed req.token ?_
  have mine : req ∈ s.requestsOf cfg i := own ▸ mem_requestsOf_of_channel worker member
  rw [ring_of_eq]
  exact Multiset.mem_add.mpr (.inl (Multiset.mem_map_of_mem _ mine))

/-- The requests in the channels a worker looks into on behalf of others. -/
theorem Fit.behalf (fit : Fit cfg s) (reached : (system cfg).Reachable s)
    (worker : w < cfg.numWorkers) {k : ReqCont} {scan : List ℕ}
    (here : (s.workers w).pc = .recvReqFor k scan) (inScan : i ∈ scan)
    (member : req ∈ s.net.chanRequests i) : req.state ≠ .failed ∧ req.ID ≠ i := by
  have scanOk := (fit.workers w worker).scan
  rw [here] at scanOk
  obtain ⟨inside, side, flag, -, below⟩ := scanOk i inScan
  rcases reachable_cases reached with ok | closed
  · exact ok.waiting_channel inside (ok.subtree_waits worker flag inside below) member
  · -- after `RT_EXIT` only requests of the master are left, and the master is below nobody
    obtain ⟨owner, live⟩ : req.token.owner = 0 ∧ req.token.state ≠ .failed :=
      closed.closing.leftover (.channel i, req.token)
        (mem_ring_channel.mpr ⟨inside, req, member, rfl⟩)
    refine ⟨live, fun own => ?_⟩
    have master : i = 0 := own.symm.trans owner
    subst master
    exact not_seesIdle_master ⟨side, flag, below⟩

theorem Fit.ensures (fit : Fit cfg s) (few : cfg.numWorkers ≤ 32)
    (reached : (system cfg).Reachable s) (worker : w < cfg.numWorkers) (c : Choice) :
    Ensures Unrelated (wstep cfg w c (s.node w)) (Flows cfg w (s.node w)) :=
  wstep_flows few worker (fit.workers w worker) fit.channels
    (fun _ _ here _ inScan _ member => fit.behalf reached worker here inScan member) c

theorem mem_pushRequest {net : Network} {v : ℕ} {req' : StealRequest}
    (member : req' ∈ (net.pushRequest v req).chanRequests i) :
    req' ∈ net.chanRequests i ∨ i = v ∧ req' = req := by
  simp only [Network.pushRequest] at member
  by_cases same : i = v
  · subst same
    rw [update_self, List.mem_append, List.mem_singleton] at member
    exact member.imp_right fun last => ⟨rfl, last⟩
  · rw [update_of_ne same] at member
    exact .inl member

theorem mem_dropRequest {net : Network} {j : ℕ}
    (member : req ∈ (net.dropRequest j).chanRequests i) : req ∈ net.chanRequests i := by
  simp only [Network.dropRequest] at member
  by_cases same : i = j
  · subst same
    rw [update_self] at member
    exact List.mem_of_mem_tail member
  · rwa [update_of_ne same] at member

/-- What `next_victim` makes of a request may be sent. -/
theorem Chosen.inChannel {x : Worker} {v : ℕ} {req' : StealRequest}
    (chosen : Chosen cfg w x req v req') (call : Call cfg w req) (live : req.state ≠ .failed) :
    InChannel cfg v req' := by
  have unset := chosen.sender_unset call
  obtain ⟨victims, rfl⟩ := chosen.same
  refine ⟨unset, fun _ => ⟨live, call.sender, fun i known => ?_, call.tries⟩, fun _ other => ?_⟩
  · exact call.below i (chosen.subset i known)
  · exact lt_of_le_of_ne call.tries fun limit => other (chosen.limit limit).symm

theorem Motion.channels {n' : Node} (motion : Motion cfg w n n')
    (fits : ∀ i, ∀ req ∈ n.net.chanRequests i, InChannel cfg i req) :
    ∀ i, ∀ req ∈ n'.net.chanRequests i, InChannel cfg i req := by
  intro i req member
  cases motion with
  | took first after hand =>
    rw [after] at member
    exact fits i req (mem_dropRequest member)
  | disposed disposed hand =>
    cases disposed with
    | gone after =>
      rw [after] at member
      exact fits i req member
    | passed call chosen live source after =>
      rw [after] at member
      rcases mem_pushRequest member with old | ⟨rfl, rfl⟩
      · exact fits i req old
      · exact chosen.inChannel call live
    | gaveUp failed unset after =>
      rw [after] at member
      rcases mem_pushRequest member with old | ⟨rfl, rfl⟩
      · exact fits i req old
      · exact ⟨unset, fun live => absurd failed live, fun live => absurd failed live⟩

theorem WorkerFit.init (cfg : Config) (w : ℕ) : WorkerFit cfg w (Worker.init cfg w) := by
  refine ⟨fun req held => ?_, ⟨fun req member => ?_, fun side missing => ?_⟩, ?_⟩
  · by_cases master : w = 0 <;> simp [Worker.init, master, Pc.hand] at held
  · cases member
  · cases side with
    | left =>
      have none := (leftChild_eq_none cfg.someWorker).mpr missing
      exact Option.isNone_iff_eq_none.mpr none
    | right =>
      have none := (rightChild_eq_none cfg.someWorker).mpr missing
      exact Option.isNone_iff_eq_none.mpr none
  · by_cases master : w = 0 <;> simp [Worker.init, master, Pc.scanOk]

theorem Fit.init (cfg : Config) : Fit cfg (State.init cfg) := by
  refine ⟨fun w _ => .init cfg w, fun i req member => ?_⟩
  cases member

theorem Fit.step (fit : Fit cfg s) (few : cfg.numWorkers ≤ 32) (reached : (system cfg).Reachable s)
    (worker : w < cfg.numWorkers) {c : Choice} (moved : wstep cfg w c (s.node w) = .ok n) :
    Fit cfg (s.put w n) ∧ Motion cfg w (s.node w) n := by
  have flows := (fit.ensures few reached worker c).value moved
  refine ⟨⟨fun v inside => ?_, flows.motion.channels fit.channels⟩, flows.motion⟩
  by_cases same : v = w
  · subst same
    simpa [State.put] using flows.fit
  · simpa [State.put, same] using fit.workers v inside

theorem reachable_fit (few : cfg.numWorkers ≤ 32) (reached : (system cfg).Reachable s) :
    Fit cfg s := by
  refine @Transition.System.Reachable.invariant _ (system cfg) (Fit cfg) ?_ ?_ s reached
  · rintro s rfl
    exact .init cfg
  · rintro s s' reached fit ⟨w, worker, c, n, moved, rfl⟩
    exact (fit.step few reached worker moved).1

end Runs

end Tasking.Runtime
