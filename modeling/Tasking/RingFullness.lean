import Tasking.RingProtocol

/-!
When `channel_send` on a multi-producer channel fails.  `IS_FULL` is first evaluated
without the lock, from two indices that other threads move between the two reads.
If the consumer publishes `head` in between, the difference of the indices is not the
number of items at any moment: an empty ring of two or more places can look full
(`stale_tail_looks_full`).  Otherwise, and always with a single place, a send that
fails saw the ring full (`Fresh`).
-/
namespace Tasking.RingProtocol
open Channels Fallible Transition

variable {ι α : Type} {size : ℕ}

/-- Between the two reads of the test without the lock. -/
def SendPc.midTest : SendPc α → Bool
  | .full .unlocked (.tail _) _ | .full .unlocked (.head _) _ => true
  | _ => false

/-- The step does not publish `head` while a producer is between its two reads, unless
the ring has a single place. -/
def Undisturbing (n : ℕ) (s : State ι α) : Party ι α → Prop
  | .producer _ _ => True
  | .consumer _ => ∀ h v, s.consumer.pc = .publish h v →
      n = 1 ∨ ∀ i, (s.producers i).pc.midTest = false

/-- The runs of the multi-producer channel in which every step is undisturbing. -/
def undisturbed [DecidableEq ι] (g : Shape) (memory : ℕ → UInt8) :
    System (State ι (Item size)) where
  init s := s = initial memory
  step s s' := ∃ party, Undisturbing g.n s party ∧ move .mpsc g party s = .ok s'

/-- If the other index were read now and the ring looked full, the call saw it full. -/
def FreshReads (n : ℕ) (c : Chan ι α) (saw : Bool) : Reads → Prop
  | .neither => True
  | .tail t => isFull n t c.head = true → saw = true
  | .head h => (n ≠ 1 → h = c.head) ∧ (isFull n c.tail h = true → saw = true)

abbrev FreshPc (n : ℕ) (c : Chan ι α) (saw : Bool) (pc : SendPc α) : Prop :=
  Outside (FreshReads n) (· = true) c saw pc

def Fresh (n : ℕ) (s : State ι α) : Prop :=
  ∀ i, FreshPc n s.chan (s.producers i).sawFull (s.producers i).pc

section Steps

variable {n : ℕ} {g : Shape} {s : State ι (Item size)} {i : ι} {c c' : Chan ι (Item size)}
  {saw saw' : Bool} {pc : SendPc (Item size)}

theorem FreshPc.mono (fresh : FreshPc n c saw pc) (head : c'.head = c.head)
    (tail : c'.tail = c.tail) (more : saw = true → saw' = true) : FreshPc n c' saw' pc := by
  refine fresh.imp (fun reads v _ known => ?_) more
  cases reads with
  | neither => trivial
  | tail t =>
    intro looks
    rw [head] at looks
    exact more (known looks)
  | head h =>
    refine ⟨fun several => (known.1 several).trans head.symm, fun looks => ?_⟩
    rw [tail] at looks
    exact more (known.2 looks)

/-- The indices as they are look full only if the ring is. -/
theorem Inv.looks_full (inv : Inv .mpsc g s) (double : 2 * (g.n + 1) ≤ 2 ^ 32)
    (calling : (s.producers i).pc.calling = true)
    (looks : isFull g.n s.chan.tail s.chan.head = true) : (s.producers i).sawFull = true := by
  apply inv.sawFull i calling
  rw [inv.chan.tail, inv.chan.head, isFull_iff double inv.chan.order inv.chan.room] at looks
  rw [Chan.stored]
  omega

/-- The others, after `tail` was published: the ring is not empty now. -/
theorem FreshPc.publish (fresh : FreshPc g.n c saw (s.producers i).pc) (inv : Inv .mpsc g s)
    (double : 2 * (g.n + 1) ≤ 2 ^ 32) (head : s.chan.head = c.head)
    (more : s.chan.received.length < s.chan.sent.length)
    (kept : saw = true → (s.producers i).sawFull = true) :
    FreshPc g.n s.chan (s.producers i).sawFull (s.producers i).pc := by
  refine fresh.imp (fun reads v here known => ?_) kept
  have calling : (s.producers i).pc.calling = true := by rw [here]; rfl
  cases reads with
  | neither => trivial
  | tail t =>
    intro looks
    rw [head] at looks
    exact kept (known looks)
  | head h =>
    refine ⟨fun several => (known.1 several).trans head.symm, fun looks => ?_⟩
    by_cases one : g.n = 1
    · apply inv.sawFull i calling
      have room := inv.chan.room
      rw [Chan.stored]
      omega
    · rw [known.1 one, ← head] at looks
      exact inv.looks_full double calling looks

/-- The others, after `head` was published. -/
theorem FreshPc.take (fresh : FreshPc g.n c saw pc)
    (seen : pc.midTest = true → g.n = 1 ∧ saw = true) (kept : saw = true → saw' = true) :
    FreshPc g.n c' saw' pc := by
  refine fresh.imp (fun reads v here _ => ?_) kept
  cases reads with
  | neither => trivial
  | tail t => exact fun _ => kept (seen (by rw [here]; rfl)).2
  | head h =>
    have seen := seen (by rw [here]; rfl)
    exact ⟨fun several => absurd seen.1 several, fun _ => kept seen.2⟩

theorem SendPc.calling_of_midTest (mid : pc.midTest = true) : pc.calling = true := by
  cases pc with
  | full test reads v => rfl
  | _ => cases mid

/-- While the consumer publishes `head` nobody is between two reads, or the item that is about
to be taken fills the ring. -/
theorem Inv.seen_full (inv : Inv .mpsc g s) {act : Act Unit}
    (undisturbing : Undisturbing g.n s (.consumer act)) {h : ℕ} {v : Item size}
    (publishing : s.consumer.pc = .publish h v) {j : ι} (mid : (s.producers j).pc.midTest = true) :
    g.n = 1 ∧ (s.producers j).sawFull = true := by
  rcases undisturbing h v publishing with one | none
  · have consumer := inv.consumer
    rw [publishing] at consumer
    have more : s.chan.received.length < s.chan.sent.length := consumer.1
    have order := inv.chan.order
    have room := inv.chan.room
    refine ⟨one, inv.sawFull j (SendPc.calling_of_midTest mid) ?_⟩
    rw [Chan.stored]
    omega
  · simp [none j] at mid

variable [DecidableEq ι]

theorem fresh_effect (inv : Inv .mpsc g s) (fresh : Fresh g.n s)
    (double : 2 * (g.n + 1) ≤ 2 ^ 32) (i : ι) (act : Act (Item size)) :
    Ensures (fun _ => True) (channelSendStep .mpsc g i act s)
      (SendEffect (FreshReads g.n) (· = true) i s) := by
  have now := fresh i
  refine channelSendStep_effect trivial (inv.looks_full double)
    (fun calling => ⟨fun _ => rfl, inv.looks_full double calling⟩)
    (fun reads v t h here _ read looks => ?_) fun here => ?_
  · rw [here] at now
    rcases read with ⟨rfl, rfl⟩ | ⟨rfl, rfl⟩
    · exact now looks
    · exact now.2 looks
  · -- under the lock the test was exact
    have held := inv.producers i
    rw [here] at held
    exact held.2 rfl

/-- The other producers mind nothing but the publication of `tail`. -/
theorem fresh_sent (inv : Inv .mpsc g s) (fresh : Fresh g.n s) (double : 2 * (g.n + 1) ≤ 2 ^ 32)
    {i : ι} {s' : State ι (Item size)} (effect : SendEffect (FreshReads g.n) (· = true) i s s')
    (inv' : Inv .mpsc g (s'.observe g.n)) : Fresh g.n (s'.observe g.n) := by
  have order := inv.chan.order
  intro j
  have kept : (s'.producers j).sawFull = true → ((s'.observe g.n).producers j).sawFull = true :=
    Producer.observe_saw _
  by_cases own : j = i
  · subst own
    have now := FreshPc.mono effect.own rfl rfl kept
    simpa [State.observe] using now
  · have before := fresh j
    rw [← effect.others j own] at before
    rcases effect.chan with still | ⟨t, v, published⟩
    · have now := before.mono still.head still.tail kept
      simpa [State.observe] using now
    · have pc : (s'.producers j).pc = ((s'.observe g.n).producers j).pc := by
        simp [State.observe]
      rw [pc] at before
      refine before.publish inv' double ?_ ?_ kept
      · change s'.chan.head = s.chan.head
        rw [published]
      · change s'.chan.received.length < s'.chan.sent.length
        simp only [published, List.length_append, List.length_singleton]
        omega

theorem fresh_step (inv : Inv .mpsc g s) (fresh : Fresh g.n s) (double : 2 * (g.n + 1) ≤ 2 ^ 32)
    {party : Party ι (Item size)} (undisturbing : Undisturbing g.n s party)
    {s' : State ι (Item size)}
    (moved : move .mpsc g party s = .ok s') : Fresh g.n s' := by
  have inv' := (move_keeps inv double (fun wrong => absurd wrong (by simp)) party).value moved
  cases party with
  | producer i act =>
    cases ran : channelSendStep .mpsc g i act s with
    | error stop => simp [move, ran, bind, Except.bind] at moved
    | ok middle =>
      obtain rfl : middle.observe g.n = s' := by simpa [move, ran, ok_bind] using moved
      exact fresh_sent inv fresh double ((fresh_effect inv fresh double i act).value ran) inv'
  | consumer act =>
    have effect := @channelRecvStep_effect ι size g s act
    cases ran : channelRecvStep g act s with
    | error stop => simp [move, ran, bind, Except.bind] at moved
    | ok middle =>
      obtain rfl : middle.observe g.n = s' := by simpa [move, ran, ok_bind] using moved
      obtain ⟨same, -, -, chan⟩ := effect.value ran
      intro j
      have kept := @Producer.observe_saw (Item size) (middle.chan.stored == g.n)
        (middle.producers j)
      rw [same] at kept
      rcases chan with ⟨still, -⟩ | ⟨h, v, publishing, -⟩
      · have now := (fresh j).mono (congrArg Chan.head still) (congrArg Chan.tail still) kept
        simpa [State.observe, same] using now
      · have now := @FreshPc.take ι size g s.chan (middle.observe g.n).chan _ _ _ (fresh j)
          (inv.seen_full undisturbing publishing) kept
        simpa [State.observe, same] using now

end Steps

/-! ## Every run -/

theorem undisturbed_fresh [DecidableEq ι] {g : Shape} (double : 2 * (g.n + 1) ≤ 2 ^ 32)
    {memory : ℕ → UInt8} {s : State ι (Item size)} (reached : (undisturbed g memory).Reachable s) :
    Inv .mpsc g s ∧ Fresh g.n s := by
  refine @System.Reachable.invariant _ _ (fun s => Inv .mpsc g s ∧ Fresh g.n s) ?_ ?_ s reached
  · rintro s rfl
    exact ⟨inv_initial, fun _ => trivial⟩
  · rintro s s' - ⟨inv, fresh⟩ ⟨party, undisturbing, moved⟩
    exact ⟨(move_keeps inv double (fun wrong => absurd wrong (by simp)) party).value moved,
      fresh_step inv fresh double undisturbing moved⟩

/-! ## A stale index -/

/-- A whole `channel_send_mpmc` without interruption. -/
def lockedSendCall (i : ι) (v : α) : List (Party ι α) :=
  [.start v, .readTail, .readHead, .go, .readTail, .readHead, .readTail, .readHead, .go, .go, .go,
    .go, .go].map (.producer i)

/-- One producer reads `tail` of an empty ring; before it reads `head`, another item
is sent and received. -/
def staleSchedule : List (Party Bool (Item 1)) :=
  [.producer false (.start (byte 1)), .producer false .readTail] ++
    lockedSendCall true (byte 2) ++ recvCall ++
    [.producer false .readHead]

/-! Rings of two or more places cannot be told apart by a run in which the indices
stay in the first two slots and at most one item is stored. -/

section Alike

def SendPc.Low : SendPc α → Prop
  | .full _ (.tail i) _ | .full _ (.head i) _ | .copy i _ => i ≤ 1
  | .publish t _ => t = 0
  | _ => True

instance : DecidablePred (@SendPc.Low α)
  | .full _ (.tail i) _ | .full _ (.head i) _ | .copy i _ => inferInstanceAs (Decidable (i ≤ 1))
  | .publish t _ => inferInstanceAs (Decidable (t = 0))
  | .full _ .neither _ | .idle | .lock _ | .copyIndex _ | .incIndex _ | .unlock _
  | .returned _ => isTrue trivial

def RecvPc.Low : RecvPc α → Prop
  | .copy h => h ≤ 1
  | .publish h _ => h = 0
  | _ => True

instance : DecidablePred (@RecvPc.Low α)
  | .copy h => inferInstanceAs (Decidable (h ≤ 1))
  | .publish h _ => inferInstanceAs (Decidable (h = 0))
  | .idle | .empty _ _ | .copyIndex | .incIndex _ | .returned _ => isTrue trivial

/-- The indices a step would use are in the first two slots. -/
structure Low (s : State Bool α) : Prop where
  head : s.chan.head ≤ 1
  tail : s.chan.tail ≤ 1
  producers : ∀ i, (s.producers i).pc.Low
  consumer : s.consumer.pc.Low

instance (s : State Bool α) : Decidable (Low s) :=
  decidable_of_iff (s.chan.head ≤ 1 ∧ s.chan.tail ≤ 1 ∧ (∀ i, (s.producers i).pc.Low) ∧
    s.consumer.pc.Low) ⟨fun h => ⟨h.1, h.2.1, h.2.2.1, h.2.2.2⟩,
      fun h => ⟨h.head, h.tail, h.producers, h.consumer⟩⟩

variable {n : ℕ} {s : State Bool (Item 1)}

theorem isFull_low (several : 2 ≤ n) (double : 2 * (n + 1) ≤ 2 ^ 32) {t h : ℕ} (tail : t ≤ 1)
    (head : h ≤ 1) : isFull n t h = decide (t < h) := by
  rw [Bool.eq_iff_iff, decide_eq_true_iff]
  rcases Nat.lt_or_ge t h with stale | order
  · have reduced : (n + 1 + t + 2 ^ 32 - h) % 2 ^ 32 = n := by omega
    rw [isFull, numItems, reduced, beq_iff_eq]
    exact iff_of_true (Nat.mod_eq_of_lt (Nat.lt_succ_self n)) stale
  · have exact := @isFull_iff n h t double order (by omega)
    rw [Nat.mod_eq_of_lt (by omega), Nat.mod_eq_of_lt (by omega)] at exact
    rw [exact]
    omega

theorem inc_zero (several : 2 ≤ n) : inc n 0 = 1 := by
  rw [inc]
  exact Nat.mod_eq_of_lt (by omega)

theorem copy_low (several : 2 ≤ n) (double : 2 * (n + 1) ≤ 2 ^ 32) {k : ℕ} (low : k ≤ 1) :
    Shape.offset ⟨n, 1⟩ k + 1 ≤ Shape.bufsize ⟨n, 1⟩ := by
  change k * 1 % 2 ^ 32 + 1 ≤ (n + 1) * 1 % 2 ^ 32
  omega

theorem copyIn_low (several : 2 ≤ n) (double : 2 * (n + 1) ≤ 2 ^ 32) {c : Chan Bool (Item 1)}
    {k : ℕ} (low : k ≤ 1) {v : Item 1} : c.copyIn ⟨n, 1⟩ k v = .ok (c.put ⟨n, 1⟩ k v) := by
  rw [Chan.copyIn, check, if_pos le_rfl, ok_bind, check, if_pos (copy_low several double low)]
  rfl

theorem copyOut_low (several : 2 ≤ n) (double : 2 * (n + 1) ≤ 2 ^ 32) {c : Chan Bool (Item 1)}
    {k : ℕ} (low : k ≤ 1) : c.copyOut ⟨n, 1⟩ k = .ok (c.item ⟨n, 1⟩ k) := by
  rw [Chan.copyOut, check, if_pos le_rfl, ok_bind, check, if_pos (copy_low several double low)]
  rfl

theorem channelSendStep_alike (several : 2 ≤ n) (double : 2 * (n + 1) ≤ 2 ^ 32) (low : Low s)
    (i : Bool) (act : Act (Item 1)) :
    channelSendStep .mpsc ⟨n, 1⟩ i act s = channelSendStep .mpsc ⟨2, 1⟩ i act s := by
  have pc := low.producers i
  unfold channelSendStep
  split
  case h_5 test t v here =>
    rw [here] at pc
    simp only [isFull_low several double pc low.head,
      isFull_low le_rfl (by decide) pc low.head]
  case h_6 test h v here =>
    rw [here] at pc
    simp only [isFull_low several double low.tail pc,
      isFull_low le_rfl (by decide) low.tail pc]
  case h_9 t v here =>
    rw [here] at pc
    simp only [copyIn_low several double pc, copyIn_low le_rfl (by decide) pc]
    rfl
  case h_11 t v here =>
    rw [here] at pc
    obtain rfl : t = 0 := pc
    simp only [inc_zero several, inc_zero le_rfl]
  all_goals rfl

theorem channelRecvStep_alike (several : 2 ≤ n) (double : 2 * (n + 1) ≤ 2 ^ 32) (low : Low s)
    (act : Act Unit) : channelRecvStep ⟨n, 1⟩ act s = channelRecvStep ⟨2, 1⟩ act s := by
  have pc := low.consumer
  unfold channelRecvStep
  split
  case h_8 h here =>
    rw [here] at pc
    simp only [copyOut_low several double pc, copyOut_low le_rfl (by decide) pc]
    rfl
  case h_10 h v here =>
    rw [here] at pc
    obtain rfl : h = 0 := pc
    simp only [inc_zero several, inc_zero le_rfl]
  all_goals rfl

/-- One step, if it leaves at most one item stored. -/
theorem move_alike (several : 2 ≤ n) (double : 2 * (n + 1) ≤ 2 ^ 32) (low : Low s)
    (party : Party Bool (Item 1))
    (few : ((move .mpsc ⟨2, 1⟩ party s).toOption.getD s).chan.stored ≤ 1) :
    move .mpsc ⟨n, 1⟩ party s = move .mpsc ⟨2, 1⟩ party s := by
  have same : ∀ s' : State Bool (Item 1), s'.chan.stored ≤ 1 → s'.observe n = s'.observe 2 := by
    intro s' few
    have notFull : (s'.chan.stored == n) = (s'.chan.stored == 2) := by
      rw [Bool.eq_iff_iff, beq_iff_eq, beq_iff_eq]
      omega
    rw [State.observe, State.observe, notFull]
  cases party with
  | producer i act =>
    simp only [move, channelSendStep_alike several double low i act] at few ⊢
    cases ran : channelSendStep .mpsc ⟨2, 1⟩ i act s with
    | error stop => rfl
    | ok s' =>
      rw [ran] at few
      exact congrArg Except.ok (same s' few)
  | consumer act =>
    simp only [move, channelRecvStep_alike several double low act] at few ⊢
    cases ran : channelRecvStep ⟨2, 1⟩ act s with
    | error stop => rfl
    | ok s' =>
      rw [ran] at few
      exact congrArg Except.ok (same s' few)

/-- The whole run stays in the first two slots, with at most one item. -/
def staysLow : List (Party Bool (Item 1)) → State Bool (Item 1) → Bool
  | [], _ => true
  | party :: rest, s => decide (Low s) &&
      decide (((move .mpsc ⟨2, 1⟩ party s).toOption.getD s).chan.stored ≤ 1) &&
      staysLow rest ((move .mpsc ⟨2, 1⟩ party s).toOption.getD s)

theorem follow_alike (several : 2 ≤ n) (double : 2 * (n + 1) ≤ 2 ^ 32)
    {schedule : List (Party Bool (Item 1))} (low : staysLow schedule s = true) :
    System.follow (move .mpsc ⟨n, 1⟩) schedule s = System.follow (move .mpsc ⟨2, 1⟩) schedule
    s := by
  induction schedule generalizing s with
  | nil => rfl
  | cons party rest ih =>
    simp only [staysLow, Bool.and_eq_true, decide_eq_true_iff] at low
    obtain ⟨⟨now, few⟩, later⟩ := low
    rw [System.follow, System.follow, move_alike several double now party few]
    exact ih later

end Alike

/-- In every ring of two or more places the stale `tail` and the fresh `head` look like
a full ring, though it never held more than one item. -/
theorem stale_tail_looks_full (n : ℕ) (several : 2 ≤ n) (double : 2 * (n + 1) ≤ 2 ^ 32) :
    ((System.follow (move .mpsc ⟨n, 1⟩) staleSchedule (initial fun _ => 0)).producers false).pc =
        .returned false ∧
      ((System.follow (move .mpsc ⟨n, 1⟩) staleSchedule (initial fun _ => 0)).producers
        false).sawFull = false := by
  rw [follow_alike several double (by decide)]
  decide

/-- In a run in which `head` is never published between the two reads of a test
without the lock, or whose ring has a single place, a send that fails saw the ring
full.  With two or more places it need not have otherwise. -/
theorem send_fails_only_when_full [DecidableEq ι] (g : Shape) (double : 2 * (g.n + 1) ≤ 2 ^ 32)
    (memory : ℕ → UInt8) :
    (∀ (s : State ι (Item size)), (undisturbed g memory).Reachable s →
      ∀ i, (s.producers i).pc = .returned false → (s.producers i).sawFull = true) ∧
    (2 ≤ g.n → ∃ s : State Bool (Item 1), (system .mpsc ⟨g.n, 1⟩ fun _ => 0).Reachable s ∧
      (s.producers false).pc = .returned false ∧ (s.producers false).sawFull = false) := by
  constructor
  · intro s reached i failed
    have fresh := (undisturbed_fresh double reached).2 i
    rw [failed] at fresh
    exact fresh rfl
  · intro several
    exact ⟨_, System.follow_reachable staleSchedule, stale_tail_looks_full g.n several double⟩

/-- Without the consumer nothing is disturbed, for only the consumer publishes `head`. -/
theorem producers_undisturbed [DecidableEq ι] {g : Shape} {memory : ℕ → UInt8}
    {s : State ι (Item size)} (reached : (undisturbed g memory).Reachable s)
    (schedule : List (ι × Act (Item size))) :
    (undisturbed g memory).Reachable
      (System.follow (move .mpsc g) (schedule.map fun e => .producer e.1 e.2) s) :=
  reached.follow (List.forall_mem_map.mpr fun e _ _ _ moved =>
    ⟨.producer e.1 e.2, trivial, moved⟩)

/-- A ring with two places is filled, and a third send fails. -/
def filledSchedule : List (Bool × Act (Item 1)) :=
  let send (v : Item 1) : List (Act (Item 1)) := [.start v, .readTail, .readHead, .go, .readTail,
    .readHead, .readTail, .readHead, .go, .go, .go, .go, .go]
  (send (byte 1) ++ send (byte 2)).map (fun act => (true, act)) ++
    [(false, .start (byte 3)), (false, .readTail), (false, .readHead)]

theorem third_send_saw_full_ring :
    ((System.follow (move .mpsc ⟨2, 1⟩) (filledSchedule.map fun e => .producer e.1 e.2)
        (initial fun _ => 0)).producers false).pc = .returned false ∧
      ((System.follow (move .mpsc ⟨2, 1⟩) (filledSchedule.map fun e => .producer e.1 e.2)
        (initial fun _ => 0)).producers false).sawFull = true :=
  ⟨by decide +kernel, (send_fails_only_when_full ⟨2, 1⟩ (by decide) fun _ => 0).1 _
    (producers_undisturbed (System.reachable_of_init rfl) filledSchedule) false
    (by decide +kernel)⟩

/-- A send fails although the ring, with its two places, held at most one item. -/
theorem send_refused_by_stale_index :
    ∃ s : State Bool (Item 1), (system .mpsc ⟨2, 1⟩ fun _ => 0).Reachable s ∧
      (s.producers false).pc = .returned false ∧ (s.producers false).sawFull = false :=
  ⟨_, System.follow_reachable staleSchedule, by decide⟩

end Tasking.RingProtocol
