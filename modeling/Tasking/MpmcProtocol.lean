import Tasking.RingProtocol

/-!
The buffered channels of `channel_shm/channel.c` with any number of threads in
`channel_send_mpmc` and any number in `channel_recv_mpmc`, one access at a time.

Between `pthread_mutex_lock` and `pthread_mutex_unlock` of `head_lock` the text of
`channel_recv_mpmc` is that of `channel_recv_mpsc`, so that the thread with the lock is
the single consumer of `RingProtocol`.  The test before the lock is not protected: it
is right as long as no other thread of the same side has moved the index in between.
-/
namespace Tasking.MpmcProtocol
open Channels Fallible Transition Function
open RingProtocol hiding State Party move initial system

/-! ## The program -/

/-- Where a receive stands.  Under the lock it is one of the ring with a single consumer. -/
inductive TakePc (α : Type) where
  | idle
  /-- `IS_EMPTY` before the lock. -/
  | test (reads : Reads)
  | lock
  /-- From the second `IS_EMPTY` on; `returned` is the point before the unlock. -/
  | locked (pc : RecvPc α)
  | returned (result : Option α)
  deriving DecidableEq, Repr

def TakePc.calling {α : Type} : TakePc α → Bool
  | .idle | .returned _ => false
  | _ => true

/-- History of a call: how many calls of its side had succeeded when it began, and
whether another one did meanwhile. -/
structure Pace where
  since : ℕ
  overtaken : Bool
  deriving DecidableEq, Repr

/-- A receiving thread; `sawEmpty` and `pace` are history. -/
structure Receiver (α : Type) where
  pc : TakePc α
  sawEmpty : Bool
  pace : Pace

/-- `log` says who took which item, and `results` what the calls of each thread have
returned; both are history, and so is `sends`. -/
structure State (ι κ α : Type) where
  chan : Chan ι α
  headLock : Option κ
  producers : ι → Producer α
  sends : ι → Pace
  consumers : κ → Receiver α
  log : List (κ × α)
  results : κ → List α

variable {ι κ α : Type} {size : ℕ}

/-- The channel with one consumer. -/
def State.ring (s : State ι κ α) (c : Consumer α) : RingProtocol.State ι α :=
  ⟨s.chan, s.producers, c⟩

def Pace.begin (p : Pace) (count : ℕ) : Act α → Pace
  | .start _ => ⟨count, false⟩
  | _ => p

/-- One access of the producer `i`. -/
def channelSendStep [DecidableEq ι] (g : Shape) (i : ι) (act : Act (Item size))
    (s : State ι κ (Item size)) : Channels.Checked (State ι κ (Item size)) := do
  let ring ← RingProtocol.channelSendStep .mpsc g i act (s.ring ⟨.idle, false, []⟩)
  return { s with
    chan := ring.chan
    producers := ring.producers
    sends := update s.sends i ((s.sends i).begin s.chan.sent.length act) }

def State.goto [DecidableEq κ] (s : State ι κ α) (j : κ) (pc : TakePc α) : State ι κ α :=
  { s with consumers := update s.consumers j { s.consumers j with pc := pc } }

/-- After `IS_EMPTY` without the lock. -/
def afterTest (empty : Bool) : TakePc α := if empty then .returned none else .lock

/-- One access of the consumer `j`. -/
def channelRecvStep [DecidableEq κ] (g : Shape) (j : κ) (act : Act Unit)
    (s : State ι κ (Item size)) : Channels.Checked (State ι κ (Item size)) :=
  match (s.consumers j).pc, act with
  | .idle, .start _ | .returned _, .start _ =>
    return { s with
      consumers := update s.consumers j
        ⟨.test .neither, false, s.chan.received.length, false⟩ }
  | .test .neither, .readTail => return s.goto j (.test (.tail s.chan.tail))
  | .test .neither, .readHead => return s.goto j (.test (.head s.chan.head))
  | .test (.tail t), .readHead => return s.goto j (afterTest (isEmpty s.chan.head t))
  | .test (.head h), .readTail => return s.goto j (afterTest (isEmpty h s.chan.tail))
  | .lock, .go =>
    if s.headLock.isNone then
      return { s.goto j (.locked (.empty false .neither)) with headLock := some j }
    else .error .disabled
  | .locked (.returned result), .go =>
    return { s.goto j (.returned result) with
      headLock := none
      results := update s.results j (s.results j ++ result.toList) }
  | .locked (.returned _), _ => .error .disabled
  | .locked pc, act => do
    let ring ← RingProtocol.channelRecvStep g act (s.ring ⟨pc, (s.consumers j).sawEmpty, []⟩)
    return { s.goto j (.locked ring.consumer.pc) with
      chan := ring.chan
      log := s.log ++ ring.consumer.pc.result.map (j, ·) }
  | _, _ => .error .disabled

/-! ## Interleaving -/

def Pace.observe (count : ℕ) (p : Pace) : Pace :=
  { p with overtaken := p.overtaken || decide (p.since < count) }

def Receiver.observe (c : Chan ι α) (r : Receiver α) : Receiver α :=
  if r.pc.calling then
    { r with
      sawEmpty := r.sawEmpty || c.stored == 0
      pace := r.pace.observe c.received.length }
  else r

/-- Every call in progress takes note of how full the ring is, and of the calls that
overtake it. -/
def State.observe (n : ℕ) (s : State ι κ α) : State ι κ α :=
  { s with
    producers := fun i => (s.producers i).observe (s.chan.stored == n)
    sends := fun i =>
      if (s.producers i).pc.calling then (s.sends i).observe s.chan.sent.length else s.sends i
    consumers := fun j => (s.consumers j).observe s.chan }

inductive Party (ι κ α : Type) where
  | producer (i : ι) (act : Act α)
  | consumer (j : κ) (act : Act Unit)

def move [DecidableEq ι] [DecidableEq κ] (g : Shape) (party : Party ι κ (Item size))
    (s : State ι κ (Item size)) : Channels.Checked (State ι κ (Item size)) := do
  let s ← match party with
    | .producer i act => channelSendStep g i act s
    | .consumer j act => channelRecvStep g j act s
  return s.observe g.n

def initial (memory : ℕ → UInt8) : State ι κ α where
  chan := ⟨memory, 0, 0, none, [], []⟩
  headLock := none
  producers _ := ⟨.idle, false⟩
  sends _ := ⟨0, false⟩
  consumers _ := ⟨.idle, false, 0, false⟩
  log := []
  results _ := []

def system [DecidableEq ι] [DecidableEq κ] (g : Shape) (memory : ℕ → UInt8) :
    System (State ι κ (Item size)) :=
  .ofMoves (initial memory) (move g)

/-! ## What each thread knows -/

/-- A test without the lock is as good as one of a single consumer until another
thread takes an item. -/
def TakeOk (g : Shape) (c : Chan ι (Item size)) (saw : Bool) (pace : Pace) :
    TakePc (Item size) → Prop
  | .idle | .lock => True
  | .test reads => c.received.length = pace.since → RecvOk g c saw (.empty false reads)
  | .locked pc => RecvOk g c saw pc
  | .returned result => result = none → saw = true ∨ pace.overtaken = true

/-- The same for a producer.  What it knows under the lock is in `RingProtocol.Inv`. -/
def GiveReads (n : ℕ) (pace : Pace) (c : Chan ι α) (saw : Bool) (reads : Reads) : Prop :=
  c.sent.length = pace.since → FullReads n c saw false reads

/-- Why a send may fail: the ring was full during the call, or another send succeeded in the
meantime. -/
def GaveUp (pace : Pace) (saw : Bool) : Prop := saw = true ∨ pace.overtaken = true

abbrev GiveOk (n : ℕ) (c : Chan ι α) (saw : Bool) (pace : Pace) (pc : SendPc α) : Prop :=
  Outside (GiveReads n pace) (GaveUp pace) c saw pc

/-- Taken, and not returned yet. -/
def TakePc.pending : TakePc α → List α
  | .locked pc => pc.result
  | _ => []

def State.taken [DecidableEq κ] (s : State ι κ α) (j : κ) : List α :=
  (s.log.filter fun entry => entry.1 = j).map Prod.snd

structure Ok [DecidableEq κ] (g : Shape) (s : State ι κ (Item size)) : Prop where
  ring : Inv .mpsc g (s.ring ⟨.idle, false, []⟩)
  lock : ∀ j pc, (s.consumers j).pc = .locked pc → s.headLock = some j
  give : ∀ i, GiveOk g.n s.chan (s.producers i).sawFull (s.sends i) (s.producers i).pc
  take : ∀ j, TakeOk g s.chan (s.consumers j).sawEmpty (s.consumers j).pace (s.consumers j).pc
  log : s.log.map Prod.snd = s.chan.received
  results : ∀ j, s.taken j = s.results j ++ (s.consumers j).pc.pending
  sends : ∀ i, (s.producers i).pc.calling = true → (s.sends i).since ≤ s.chan.sent.length ∧
    ((s.sends i).since < s.chan.sent.length → (s.sends i).overtaken = true)
  receives : ∀ j, (s.consumers j).pc.calling = true →
    (s.consumers j).pace.since ≤ s.chan.received.length ∧
    ((s.consumers j).pace.since < s.chan.received.length → (s.consumers j).pace.overtaken = true)
  sawEmpty : ∀ j, (s.consumers j).pc.calling = true → s.chan.stored = 0 →
    (s.consumers j).sawEmpty = true

/-! ### What is known stays known -/

section Known

variable {n : ℕ} {g : Shape} {c c' : Chan ι (Item size)} {saw saw' : Bool} {pace pace' : Pace}
  {pc : SendPc (Item size)} {v : Item size}

theorem fullReads_same (same : Same c c') {asserted : Bool} {reads : Reads}
    (ok : FullReads n c saw asserted reads) : FullReads n c' saw asserted reads := by
  cases reads with
  | neither => trivial
  | tail t => exact Eq.trans ok same.tail.symm
  | head h => simpa only [FullReads, same.sent, same.received] using ok

theorem recvOk_same (same : Same c c') {pc : RecvPc (Item size)} (ok : RecvOk g c saw pc) :
    RecvOk g c' saw pc := by
  cases pc with
  | idle => trivial
  | empty asserted reads =>
    cases reads <;>
      simpa only [RecvOk, EmptyReads, Chan.Nonempty, same.head, same.sent, same.received] using ok
  | returned result => exact ok
  | _ =>
    simpa only [RecvOk, Chan.Nonempty, same.head, same.sent, same.received] using ok

theorem giveOk_same (same : Same c c') (ok : GiveOk n c saw pace pc) :
    GiveOk n c' saw pace pc := by
  refine ok.imp (fun reads v _ known alone => ?_) id
  rw [same.sent] at alone
  exact fullReads_same same (known alone)

theorem takeOk_same (same : Same c c') {pc : TakePc (Item size)} (ok : TakeOk g c saw pace pc) :
    TakeOk g c' saw pace pc := by
  cases pc with
  | test reads =>
    intro alone
    rw [same.received] at alone
    exact recvOk_same same (ok alone)
  | locked pc => exact recvOk_same same ok
  | _ => exact ok

theorem GiveOk.mono (ok : GiveOk n c saw pace pc) (seen : saw = true → saw' = true)
    (since : pace'.since = pace.since)
    (overtaken : pace.overtaken = true → pace'.overtaken = true) :
    GiveOk n c saw' pace' pc := by
  refine ok.imp (fun reads v _ known alone => ?_) (Or.imp seen overtaken)
  rw [since] at alone
  exact (known alone).mono seen

theorem TakeOk.mono {pc : TakePc (Item size)} (ok : TakeOk g c saw pace pc)
    (seen : saw = true → saw' = true) (since : pace'.since = pace.since)
    (overtaken : pace.overtaken = true → pace'.overtaken = true) : TakeOk g c saw' pace' pc := by
  cases pc with
  | test reads =>
    intro alone
    rw [since] at alone
    exact (ok alone).mono seen
  | locked pc => exact RecvOk.mono seen ok
  | returned result => exact fun failed => (ok failed).imp seen overtaken
  | _ => trivial

/-- Another item was sent: a consumer does not mind, for what it found in the ring is still
there. -/
theorem TakeOk.publish {pc : TakePc (Item size)} (ok : TakeOk g c saw pace pc) {t : ℕ} :
    TakeOk g { c with tail := t, sent := c.sent ++ [v] } saw pace pc := by
  cases pc with
  | test reads => exact fun alone => (ok alone).publish
  | locked pc => exact RecvOk.publish ok
  | _ => exact ok

/-- The other producers have been overtaken. -/
theorem GiveOk.publish (ok : GiveOk n c saw pace pc)
    (began : pc.calling = true → pace.since ≤ c.sent.length) {t : ℕ} :
    GiveOk n { c with tail := t, sent := c.sent ++ [v] } saw pace pc := by
  refine ok.imp (fun reads v here _ alone => ?_) id
  have earlier := began (by rw [here]; rfl)
  simp only [List.length_append, List.length_singleton] at alone
  omega

/-- An item was taken: a producer does not mind, for there is only more room than it thinks. -/
theorem GiveOk.take (ok : GiveOk n c saw pace pc) {h : ℕ} :
    GiveOk n { c with head := h, received := c.received ++ [v] } saw pace pc := by
  refine ok.imp (fun reads v _ known alone => ?_) id
  cases reads with
  | neither => trivial
  | tail t => exact known alone
  | head h =>
    obtain ⟨k, old, rest⟩ := known alone
    exact ⟨k, old.trans (by simp), rest⟩

/-- The other consumers have been overtaken, unless they have the lock. -/
theorem TakeOk.take {pc : TakePc (Item size)} (ok : TakeOk g c saw pace pc)
    (began : pc.calling = true → pace.since ≤ c.received.length)
    (unlocked : ∀ inside, pc ≠ .locked inside) {h : ℕ} :
    TakeOk g { c with head := h, received := c.received ++ [v] } saw pace pc := by
  cases pc with
  | test reads =>
    intro alone
    have earlier := began rfl
    simp only [List.length_append, List.length_singleton] at alone
    omega
  | locked pc => exact absurd rfl (unlocked pc)
  | _ => exact ok

end Known

/-- What the ring knows without its consumer. -/
theorem inv_unattended {mode : Mode} {g : Shape} {r : RingProtocol.State ι (Item size)}
    (inv : Inv mode g r) : Inv mode g ⟨r.chan, r.producers, ⟨.idle, false, []⟩⟩ :=
  { inv with consumer := trivial, sawEmpty := fun calling => by cases calling }

/-! ### History -/

section History

variable {g : Shape}

@[simp] theorem Receiver.observe_pc (c : Chan ι (Item size)) (r : Receiver (Item size)) :
    (r.observe c).pc = r.pc := by
  unfold Receiver.observe
  split <;> rfl

@[simp] theorem Receiver.observe_since (c : Chan ι (Item size)) (r : Receiver (Item size)) :
    (r.observe c).pace.since = r.pace.since := by
  unfold Receiver.observe
  split <;> rfl

theorem Receiver.observe_saw (c : Chan ι (Item size)) (r : Receiver (Item size))
    (seen : r.sawEmpty = true) : (r.observe c).sawEmpty = true := by
  unfold Receiver.observe
  split <;> simp [seen]

theorem Receiver.observe_overtaken (c : Chan ι (Item size)) (r : Receiver (Item size))
    (seen : r.pace.overtaken = true) : (r.observe c).pace.overtaken = true := by
  unfold Receiver.observe
  split <;> simp [seen, Pace.observe]

theorem TakeOk.observe {c : Chan ι (Item size)} {r : Receiver (Item size)} {pc : TakePc (Item size)}
    (ok : TakeOk g c r.sawEmpty r.pace pc) :
    TakeOk g c (r.observe c).sawEmpty (r.observe c).pace pc :=
  ok.mono (r.observe_saw c) (r.observe_since c) (r.observe_overtaken c)

variable [DecidableEq κ]

/-- The history variables are brought up to date after every step. -/
theorem Ok.observed {s : State ι κ (Item size)}
    (ring : Inv .mpsc g (RingProtocol.State.observe g.n (s.ring ⟨.idle, false, []⟩)))
    (lock : ∀ j pc, (s.consumers j).pc = .locked pc → s.headLock = some j)
    (give : ∀ i, GiveOk g.n s.chan (s.producers i).sawFull (s.sends i) (s.producers i).pc)
    (take : ∀ j, TakeOk g s.chan ((s.consumers j).observe s.chan).sawEmpty
      ((s.consumers j).observe s.chan).pace (s.consumers j).pc)
    (log : s.log.map Prod.snd = s.chan.received)
    (results : ∀ j, s.taken j = s.results j ++ (s.consumers j).pc.pending)
    (sends : ∀ i, (s.producers i).pc.calling = true → (s.sends i).since ≤ s.chan.sent.length)
    (receives : ∀ j, (s.consumers j).pc.calling = true →
      (s.consumers j).pace.since ≤ s.chan.received.length) : Ok g (s.observe g.n) where
  ring := ring
  lock j pc here := lock j pc (by simpa [State.observe] using here)
  give i := by
    have seen := @Producer.observe_saw (Item size) (s.chan.stored == g.n) (s.producers i)
    have now := @GiveOk.mono ι size g.n s.chan _ _ _ ((s.observe g.n).sends i) _ (give i) seen ?_ ?_
    · simpa [State.observe] using now
    · simp only [State.observe]
      split <;> rfl
    · intro overtaken
      simp only [State.observe]
      split <;> simp [Pace.observe, overtaken]
  take j := by simpa [State.observe] using take j
  log := log
  results j := by simpa [State.observe, State.taken] using results j
  sends i calling := by
    simp only [State.observe, Producer.observe_pc] at calling ⊢
    rw [if_pos calling]
    refine ⟨sends i calling, fun later => ?_⟩
    have behind : (s.sends i).since < s.chan.sent.length := later
    simp [Pace.observe, behind]
  receives j calling := by
    simp only [State.observe, Receiver.observe_pc] at calling ⊢
    refine ⟨by simpa using receives j calling, fun later => ?_⟩
    rw [Receiver.observe_since] at later
    simp [Receiver.observe, calling, Pace.observe, later]
  sawEmpty j calling empty := by
    simp only [State.observe, Receiver.observe_pc] at calling empty ⊢
    simp [Receiver.observe, calling, empty]

end History

/-! ## The steps of a producer -/

section Sending

variable {g : Shape} {i : ι}

variable {r : RingProtocol.State ι (Item size)} {pace : Pace}

/-- The end of the test without the lock: it is right, or the call was overtaken. -/
theorem gives_up (inv : Inv .mpsc g r) (double : 2 * (g.n + 1) ≤ 2 ^ 32)
    (began : (r.producers i).pc.calling = true → pace.since ≤ r.chan.sent.length ∧
      (pace.since < r.chan.sent.length → pace.overtaken = true))
    (ok : GiveOk g.n r.chan (r.producers i).sawFull pace (r.producers i).pc) {reads : Reads}
    {v : Item size}
    (here : (r.producers i).pc = .full .unlocked reads v) {t h : ℕ}
    (read : reads = .tail t ∧ h = r.chan.head ∨ reads = .head h ∧ t = r.chan.tail)
    (looks : isFull g.n t h = true) : GaveUp pace (r.producers i).sawFull := by
  have calling : (r.producers i).pc.calling = true := by rw [here]; rfl
  obtain ⟨earlier, overtaken⟩ := began calling
  rw [here] at ok
  by_cases alone : r.chan.sent.length = pace.since
  · have known := ok alone
    have full : if isFull g.n t h then
        (r.producers i).sawFull = true ∧ (false = true → ¬ r.chan.Room g.n)
        else r.chan.Room g.n := by
      apply inv.test double calling
      rcases read with ⟨rfl, now⟩ | ⟨rfl, now⟩
      · exact .inl ⟨known, now⟩
      · exact .inr ⟨known, now⟩
    rw [if_pos looks] at full
    exact .inl full.1
  · exact .inr (overtaken (by omega))

variable [DecidableEq ι]

theorem give_effect (inv : Inv .mpsc g r) (double : 2 * (g.n + 1) ≤ 2 ^ 32)
    (began : (r.producers i).pc.calling = true → pace.since ≤ r.chan.sent.length ∧
      (pace.since < r.chan.sent.length → pace.overtaken = true))
    (ok : GiveOk g.n r.chan (r.producers i).sawFull pace (r.producers i).pc)
    (act : Act (Item size)) :
    Ensures (fun _ => True) (RingProtocol.channelSendStep .mpsc g i act r)
      (SendEffect (GiveReads g.n (pace.begin r.chan.sent.length act))
        (GaveUp (pace.begin r.chan.sent.length act)) i r) := by
  refine channelSendStep_effect (fun _ => trivial) (fun _ _ => rfl) (fun calling _ => ?_)
    (fun reads v t h here going read looks => ?_) fun here => ?_
  · refine ⟨_, le_rfl, inv.chan.head, inv.chan.room, fun full => ?_, fun wrong => by cases wrong⟩
    apply inv.sawFull i calling
    rw [Chan.stored]
    omega
  · have still : pace.begin r.chan.sent.length act = pace := by
      cases act with
      | start v => exact absurd rfl (going v)
      | _ => rfl
    rw [still]
    exact gives_up inv double began ok here read looks
  · -- under the lock the test was exact
    have held := inv.producers i
    rw [here] at held
    exact .inl (held.2 rfl)

/-- A thread that is not in a call begins one. -/
theorem send_calls {act : Act (Item size)} {r' : RingProtocol.State ι (Item size)}
    (ran : RingProtocol.channelSendStep .mpsc g i act r = .ok r') :
    (∃ v, act = .start v) ∨ (r.producers i).pc.calling = true := by
  cases act with
  | start v => exact .inl ⟨v, rfl⟩
  | _ =>
    right
    unfold RingProtocol.channelSendStep at ran
    cases here : (r.producers i).pc with
    | idle => simp [here] at ran
    | returned result => simp [here] at ran
    | _ => rfl

variable [DecidableEq κ] {s : State ι κ (Item size)}

theorem channelSendStep_keeps (ok : Ok g s) (double : 2 * (g.n + 1) ≤ 2 ^ 32) (i : ι)
    (act : Act (Item size)) : Ensures (fun _ => ¬ g.Fits size) (channelSendStep g i act s)
    (fun s' => Ok g (s'.observe g.n)) := by
  have ring := RingProtocol.channelSendStep_keeps ok.ring double (by simp) i act
  have effect := give_effect ok.ring double (ok.sends i) (ok.give i) act
  unfold channelSendStep
  rw [ensures_bind]
  cases ran : RingProtocol.channelSendStep .mpsc g i act (s.ring ⟨.idle, false, []⟩) with
  | error stop =>
    rw [ran] at ring
    cases stop with
    | disabled => trivial
    | fault which => exact ring
  | ok r =>
    have inv := ring.value ran
    obtain ⟨others, -, chan, own⟩ := effect.value ran
    have received : r.chan.received = s.chan.received := by
      rcases chan with same | ⟨t, v, published⟩
      · exact same.received
      · rw [published]
        rfl
    have longer : s.chan.sent.length ≤ r.chan.sent.length := by
      rcases chan with same | ⟨t, v, published⟩
      · exact (congrArg List.length same.sent).ge
      · rw [published]
        simp [State.ring]
    refine Ok.observed (inv_unattended inv) ok.lock (fun k => ?_) (fun j => ?_) ?_ ok.results ?_ ?_
    · by_cases self : k = i
      · subst self
        simp only [update_self]
        exact own
      · have before := ok.give k
        simp only [update_of_ne self, others k self]
        rcases chan with same | ⟨t, v, published⟩
        · exact giveOk_same same before
        · rw [published]
          exact before.publish fun calling => (ok.sends k calling).1
    · apply TakeOk.observe
      rcases chan with same | ⟨t, v, published⟩
      · exact takeOk_same same (ok.take j)
      · simp only [published]
        exact (ok.take j).publish
    · exact ok.log.trans received.symm
    · intro k calling
      by_cases self : k = i
      · subst self
        simp only [update_self]
        rcases send_calls ran with ⟨v, rfl⟩ | before
        · exact longer
        · have earlier := (ok.sends k before).1
          cases act with
          | start v => exact longer
          | _ => exact earlier.trans longer
      · simp only [update_of_ne self, others k self] at calling ⊢
        exact (ok.sends k calling).1.trans longer
    · intro j calling
      exact (ok.receives j calling).1.trans (congrArg List.length received).ge

end Sending

/-! ## The steps of a consumer -/

section Receiving

variable {g : Shape} [DecidableEq κ] {s : State ι κ (Item size)} {j : κ} {pc : RecvPc (Item size)}

/-- A consumer that has not been overtaken, or that has the lock, is a single one: what is known
of the ring with one consumer applies to it. -/
theorem Ok.single (ok : Ok g s) (calling : (s.consumers j).pc.calling = true)
    (known : RecvOk g s.chan (s.consumers j).sawEmpty pc) :
    Inv .mpsc g (s.ring ⟨pc, (s.consumers j).sawEmpty, []⟩) :=
  { ok.ring with consumer := known, sawEmpty := fun _ empty => ok.sawEmpty j calling empty }

/-- The end of the test without the lock: it is right, or the call was overtaken. -/
theorem Ok.misses (ok : Ok g s) {reads : Reads} (here : (s.consumers j).pc = .test reads) {t h : ℕ}
    (read : reads = .tail t ∧ h = s.chan.head ∨ reads = .head h ∧ t = s.chan.tail) :
    TakeOk g s.chan (s.consumers j).sawEmpty (s.consumers j).pace (afterTest (isEmpty h t)) := by
  have calling : (s.consumers j).pc.calling = true := by rw [here]; rfl
  obtain ⟨earlier, overtaken⟩ := ok.receives j calling
  have known := ok.take j
  rw [here] at known
  cases looks : isEmpty h t with
  | false => trivial
  | true =>
    intro _
    by_cases alone : s.chan.received.length = (s.consumers j).pace.since
    · have tested := (ok.single calling (known alone)).emptyTest rfl read
      rw [looks] at tested
      exact .inl (tested rfl)
    · exact .inr (overtaken (by omega))

/-- A step of `j` that leaves the channel alone. -/
theorem Ok.steps (ok : Ok g s) {x : Receiver (Item size)} {holder : Option κ}
    {results : κ → List (Item size)} (own : ∀ pc, x.pc = .locked pc → holder = some j)
    (others : ∀ k pc, k ≠ j → (s.consumers k).pc = .locked pc → holder = some k)
    (take : TakeOk g s.chan x.sawEmpty x.pace x.pc)
    (returned : s.taken j = results j ++ x.pc.pending)
    (same : ∀ k, k ≠ j → results k = s.results k)
    (began : x.pc.calling = true → x.pace.since ≤ s.chan.received.length) :
    Ok g (State.observe g.n { s with
      headLock := holder
      consumers := update s.consumers j x
      results := results }) := by
  have ring : Inv .mpsc g (RingProtocol.State.observe g.n (s.ring ⟨.idle, false, []⟩)) :=
    Inv.observed ok.ring.chan ok.ring.producers trivial
  refine Ok.observed ring (fun k pc => ?_) ok.give (fun k => ?_) ok.log (fun k => ?_)
    (fun i calling => (ok.sends i calling).1) (fun k => ?_)
  · by_cases self : k = j
    · subst self
      simpa using own pc
    · simpa [self] using others k pc self
  · apply TakeOk.observe
    by_cases self : k = j
    · subst self
      simpa using take
    · simpa [self] using ok.take k
  · by_cases self : k = j
    · subst self
      simpa [State.taken] using returned
    · simpa [self, same k self, State.taken] using ok.results k
  · by_cases self : k = j
    · subst self
      simpa using began
    · simpa [self] using fun calling => (ok.receives k calling).1

/-- A step outside the lock. -/
theorem Ok.goes (ok : Ok g s) {pc : TakePc (Item size)} (before : (s.consumers j).pc.calling = true)
    (unlocked : ∀ inside, (s.consumers j).pc ≠ .locked inside)
    (after : ∀ inside, pc ≠ .locked inside)
    (take : TakeOk g s.chan (s.consumers j).sawEmpty (s.consumers j).pace pc) :
    Ok g ((s.goto j pc).observe g.n) := by
  have pending : ∀ {pc : TakePc (Item size)},
      (∀ inside, pc ≠ .locked inside) → pc.pending = [] := by
    intro pc outside
    cases pc with
    | locked inside => exact absurd rfl (outside inside)
    | _ => rfl
  refine ok.steps (fun inside here => absurd here (after inside))
    (fun k inside _ here => ok.lock k inside here) take ?_ (fun _ _ => rfl)
    (fun _ => (ok.receives j before).1)
  rw [ok.results j, pending unlocked]
  exact congrArg _ (pending after).symm

theorem Ok.locked_alone (ok : Ok g s) (here : (s.consumers j).pc = .locked pc) {k : κ}
    (differ : k ≠ j) (inside : RecvPc (Item size)) : (s.consumers k).pc ≠ .locked inside := by
  intro locked
  have held := ok.lock j pc here
  rw [ok.lock k inside locked] at held
  exact differ (Option.some.inj held)

/-- A step of the thread that has the lock. -/
theorem Ok.inside (ok : Ok g s) (double : 2 * (g.n + 1) ≤ 2 ^ 32)
    (here : (s.consumers j).pc = .locked pc) (running : ∀ result, pc ≠ .returned result)
    {act : Act Unit} {r : RingProtocol.State ι (Item size)}
    (ran : RingProtocol.channelRecvStep g act (s.ring ⟨pc, (s.consumers j).sawEmpty, []⟩) = .ok r) :
    Ok g (State.observe g.n { s.goto j (.locked r.consumer.pc) with
      chan := r.chan
      log := s.log ++ r.consumer.pc.result.map (j, ·) }) := by
  have calling : (s.consumers j).pc.calling = true := by rw [here]; rfl
  have known := ok.take j
  rw [here] at known
  have inv := (RingProtocol.channelRecvStep_keeps (ok.single calling known) double act).value ran
  obtain ⟨producers, saw, -, chan⟩ := (channelRecvStep_effect act).value ran
  have longer : r.chan.sent = s.chan.sent ∧
      s.chan.received.length ≤ r.chan.received.length := by
    rcases chan with ⟨same, -⟩ | ⟨h, v, -, -, published⟩
    · rw [same]
      exact ⟨rfl, le_rfl⟩
    · rw [published]
      simp [State.ring]
  have untaken : pc.result = [] := by
    cases pc with
    | returned result => exact absurd rfl (running result)
    | _ => rfl
  refine Ok.observed ?_ (fun k inside => ?_) (fun i => ?_) (fun k => ?_) ?_ (fun k => ?_) ?_ ?_
  · have unattended := inv_unattended inv
    simp only [RingProtocol.State.observe, producers] at unattended
    exact unattended
  · intro locked
    by_cases self : k = j
    · subst self
      exact ok.lock k pc here
    · simp only [State.goto, update_of_ne self] at locked
      exact ok.lock k inside locked
  · rcases chan with ⟨same, -⟩ | ⟨h, v, -, -, published⟩
    · simp only [same]
      exact ok.give i
    · simp only [published]
      exact (ok.give i).take
  · by_cases self : k = j
    · subst self
      simp only [State.goto, update_self]
      rcases saw with saw | fresh
      · have consumer := inv.consumer
        simp only [RingProtocol.State.observe, Consumer.observe_pc] at consumer
        refine RecvOk.mono (fun seen => ?_) consumer
        simp only [Receiver.observe, TakePc.calling, if_true, Bool.or_eq_true]
        simp only [Consumer.observe] at seen
        split at seen
        · simpa [saw, State.ring] using seen
        · exact .inl (saw.symm.trans seen)
      · rw [fresh]
        exact ⟨by simp, trivial⟩
    · simp only [State.goto, update_of_ne self]
      apply TakeOk.observe
      rcases chan with ⟨same, -⟩ | ⟨h, v, -, -, published⟩
      · rw [same]
        exact ok.take k
      · rw [published]
        exact (ok.take k).take (fun calling => (ok.receives k calling).1)
          (ok.locked_alone here self)
  · rw [List.map_append, ok.log]
    rcases chan with ⟨same, none⟩ | ⟨h, v, -, some, published⟩
    · rw [none, same]
      simp [State.ring]
    · rw [some, published]
      simp [State.ring, RecvPc.result]
  · have before := ok.results k
    rw [State.taken] at before ⊢
    rw [List.filter_append, List.map_append, before]
    by_cases self : k = j
    · subst self
      simp only [State.goto, update_self, here, TakePc.pending, untaken]
      simp [List.filter_map, comp_def]
    · simp [State.goto, self, Ne.symm self]
  · intro i calling
    simp only [longer.1]
    exact (ok.sends i calling).1
  · intro k calling
    by_cases self : k = j
    · subst self
      simp only [State.goto, update_self]
      exact (ok.receives k (by rw [here]; rfl)).1.trans longer.2
    · simp only [State.goto, update_of_ne self] at calling ⊢
      exact (ok.receives k calling).1.trans longer.2

/-- One access of a consumer: no assertion fails, and the invariant is kept. -/
theorem channelRecvStep_keeps (ok : Ok g s) (double : 2 * (g.n + 1) ≤ 2 ^ 32) (j : κ)
    (act : Act Unit) :
    Ensures (fun _ => ¬ g.Fits size) (channelRecvStep g j act s)
    (fun s' => Ok g (s'.observe g.n)) := by
  have known := ok.take j
  unfold channelRecvStep
  split
  case h_1 here =>
    refine ok.steps (by simp) (fun k inside _ => ok.lock k inside) (fun _ => ?_) ?_
      (fun _ _ => rfl) (fun _ => le_rfl)
    · exact ⟨by simp, trivial⟩
    · simpa [here, TakePc.pending] using ok.results j
  case h_2 result here =>
    refine ok.steps (by simp) (fun k inside _ => ok.lock k inside) (fun _ => ?_) ?_
      (fun _ _ => rfl) (fun _ => le_rfl)
    · exact ⟨by simp, trivial⟩
    · simpa [here, TakePc.pending] using ok.results j
  case h_3 here =>
    -- what is read of `tail` now is a lower bound from here on
    have calling : (s.consumers j).pc.calling = true := by rw [here]; rfl
    refine ok.goes calling (by simp [here]) (by simp) fun _ => ⟨by simp, s.chan.sent.length, le_rfl,
      ok.ring.chan.order, ok.ring.chan.room, ok.ring.chan.tail, fun drained => ?_, by simp⟩
    apply ok.sawEmpty j calling
    rw [Chan.stored]
    omega
  case h_4 here =>
    exact ok.goes (by rw [here]; rfl) (by simp [here]) (by simp) fun _ => ⟨by simp, rfl⟩
  case h_5 t here =>
    refine ok.goes (by rw [here]; rfl) (by simp [here]) ?_ (ok.misses here (.inl ⟨rfl, rfl⟩))
    unfold afterTest
    split <;> simp
  case h_6 h here =>
    refine ok.goes (by rw [here]; rfl) (by simp [here]) ?_ (ok.misses here (.inr ⟨rfl, rfl⟩))
    unfold afterTest
    split <;> simp
  case h_7 here =>
    split
    · next unlocked =>
      have none : s.headLock = none := Option.isNone_iff_eq_none.mp unlocked
      refine ok.steps (fun _ _ => rfl) (fun k inside _ locked => ?_) ⟨by simp, trivial⟩ ?_
        (fun _ _ => rfl) (fun _ => (ok.receives j (by rw [here]; rfl)).1)
      · have held := ok.lock k inside locked
        simp [none] at held
      · simpa [here, State.goto, TakePc.pending, RecvPc.result] using ok.results j
    · trivial
  case h_8 result here =>
    rw [here] at known
    refine ok.steps (by simp)
      (fun k inside differ locked => absurd locked (ok.locked_alone here differ inside))
      (fun failed => .inl (known failed)) ?_ (fun k differ => by simp [differ])
      (by simp [TakePc.calling])
    simpa [here, TakePc.pending, RecvPc.result] using ok.results j
  case h_9 => trivial
  case h_10 act _ _ pc running here _ =>
    rw [ensures_bind]
    have calling : (s.consumers j).pc.calling = true := by rw [here]; rfl
    rw [here] at known
    have keeps := RingProtocol.channelRecvStep_keeps (ok.single calling known) double act
    cases ran : RingProtocol.channelRecvStep g act (s.ring ⟨pc, (s.consumers j).sawEmpty, []⟩) with
    | ok r => exact ok.inside double here running ran
    | error stop =>
      rw [ran] at keeps
      cases stop with
      | disabled => trivial
      | fault which => exact keeps
  case h_11 => trivial

end Receiving

/-! ## Every interleaving -/

section Runs

variable [DecidableEq κ] {g : Shape} {s : State ι κ (Item size)} {memory : ℕ → UInt8}

theorem ok_initial : Ok g (initial memory : State ι κ (Item size)) where
  ring := inv_initial
  lock _ _ here := by cases here
  give _ := trivial
  take _ := trivial
  log := rfl
  results _ := rfl
  sends _ calling := by cases calling
  receives _ calling := by cases calling
  sawEmpty _ calling := by cases calling

theorem Ok.slots_apart (ok : Ok g s) {i : ι} {t : ℕ} {v : Item size} {j : κ} {h : ℕ}
    (writing : (s.producers i).pc = .copy t v) (reading : (s.consumers j).pc = .locked (.copy h)) :
    t ≠ h := by
  have calling : (s.consumers j).pc.calling = true := by rw [reading]; rfl
  have known : RecvOk g s.chan (s.consumers j).sawEmpty (.copy h) := by
    have taking := ok.take j
    rw [reading] at taking
    exact taking
  have current : h = s.chan.head := known.2
  rw [current]
  exact (ok.single calling known).slots_apart writing rfl

variable [DecidableEq ι]

theorem move_keeps (ok : Ok g s) (double : 2 * (g.n + 1) ≤ 2 ^ 32) (party : Party ι κ (Item size)) :
    Ensures (fun _ => ¬ g.Fits size) (move g party s) (Ok g) := by
  cases party with
  | producer i act => exact ensures_bind.mpr (channelSendStep_keeps ok double i act)
  | consumer j act => exact ensures_bind.mpr (channelRecvStep_keeps ok double j act)

theorem reachable_ok (double : 2 * (g.n + 1) ≤ 2 ^ 32) (reached : (system g memory).Reachable s) :
    Ok g s := by
  refine reached.invariant ?_ ?_
  · rintro s rfl
    exact ok_initial
  · rintro s s' - ok ⟨party, moved⟩
    exact (move_keeps ok double party).value moved

end Runs

/-- Any number of producers and consumers, in every interleaving: the items are taken in
the order in which they were published, each by one consumer, whose calls return what it
took; at most `n` are stored, no slot is written while it is read, and no assertion
fails.  A call that fails saw the ring full, or empty, or was overtaken: another send,
or receive, succeeded in the meantime. -/
theorem mpmc_loses_nothing [DecidableEq ι] [DecidableEq κ] (g : Shape)
    (double : 2 * (g.n + 1) ≤ 2 ^ 32) (fits : g.Fits size) (memory : ℕ → UInt8)
    {s : State ι κ (Item size)} (reached : (system g memory).Reachable s) :
    s.log.map Prod.snd <+: s.chan.sent ∧ s.chan.sent.length ≤ s.log.length + g.n ∧
    (∀ j, (s.consumers j).pc.calling = false → s.results j = s.taken j) ∧
    (∀ i t v j h, (s.producers i).pc = .copy t v → (s.consumers j).pc = .locked (.copy h) →
      t ≠ h) ∧
    (∀ i, (s.producers i).pc = .returned false →
      (s.producers i).sawFull = true ∨ (s.sends i).overtaken = true) ∧
    (∀ j, (s.consumers j).pc = .returned none →
      (s.consumers j).sawEmpty = true ∨ (s.consumers j).pace.overtaken = true) ∧
    ∀ party fault, move g party s ≠ .error (.fault fault) := by
  have ok := reachable_ok double reached
  refine ⟨?_, ?_, ?_, ?_, ?_, ?_, ?_⟩
  · have first : s.chan.received = s.chan.sent.take s.chan.received.length :=
      ok.ring.chan.returned fits
    rw [ok.log, first]
    exact List.take_prefix _ _
  · have room : s.chan.sent.length ≤ s.chan.received.length + g.n := ok.ring.chan.room
    rw [← ok.log, List.length_map] at room
    exact room
  · intro j outside
    have all := ok.results j
    cases here : (s.consumers j).pc with
    | idle => simpa [here, TakePc.pending] using all.symm
    | returned result => simpa [here, TakePc.pending] using all.symm
    | _ => simp [here, TakePc.calling] at outside
  · intro i t v j h writing reading
    exact ok.slots_apart writing reading
  · intro i failed
    have known := ok.give i
    rw [failed] at known
    exact known rfl
  · intro j failed
    have known := ok.take j
    rw [failed] at known
    exact known rfl
  · intro party fault failed
    exact (move_keeps ok double party).tolerates failed fits

/-- A whole call without interruption. -/
def sendCall (i : ι) (v : α) : List (Party ι κ α) :=
  [.start v, .readTail, .readHead, .go, .readTail, .readHead, .readTail, .readHead, .go, .go, .go,
    .go, .go].map (.producer i)

def recvCall (j : κ) : List (Party ι κ α) :=
  [.start (), .readHead, .readTail, .go, .readHead, .readTail, .readHead, .readTail, .go, .go, .go,
    .go, .go].map (.consumer j)

/-- A ring with two places is never empty while one consumer makes its test; the other
takes an item, and a producer sends one, between the two reads. -/
def overtakingSchedule : List (Party Unit Bool (Item 1)) :=
  sendCall () (byte 5) ++ sendCall () (byte 6) ++ [.consumer false (.start ()),
    .consumer false .readHead] ++ recvCall true ++ sendCall () (byte 7) ++
      [.consumer false .readTail]

theorem overtaken_receive_fails :
    ((System.follow (move ⟨2, 1⟩) overtakingSchedule (initial fun _ => 0)).consumers
        false).sawEmpty = false ∧
      ((System.follow (move ⟨2, 1⟩) overtakingSchedule (initial fun _ => 0)).consumers
        false).pace.overtaken = true ∧
      (System.follow (move ⟨2, 1⟩) overtakingSchedule (initial fun _ => 0)).results true =
        [byte 5] :=
  ⟨by decide +kernel,
    ((mpmc_loses_nothing ⟨2, 1⟩ (by decide) ⟨by decide, by decide⟩ _
      (System.follow_reachable overtakingSchedule)).2.2.2.2.2.1
      false (by decide +kernel)).resolve_left (by decide +kernel),
    by decide +kernel⟩

end Tasking.MpmcProtocol
