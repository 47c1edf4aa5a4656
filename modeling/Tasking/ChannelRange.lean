import Tasking.Channel
import Tasking.Transition

/-!
`channel_range` of `channel_shm/channel.h`: one thread sends values and closes the
channel, another loops over what it receives.  The two interleave at their calls of
the channel functions.

The loop asks `channel_closed` before `channel_peek`.  Once the flag is seen set, all
values have been sent and the channel only drains, so that the count read afterwards
tells whether any are left (`Inv.closed`).
-/
namespace Tasking.ChannelRange
open Channels Fallible Transition

/-- The sending thread: values still to be sent before it closes the channel. -/
inductive Producer where
  | sending (values : List Payload)
  | done
  deriving DecidableEq, Repr

/-- Where the expansion of `channel_range` stands. -/
inductive Consumer where
  /-- At the loop condition, before `channel_closed`. -/
  | closedTest
  /-- Inside the loop condition, the channel being closed, before `channel_peek`. -/
  | peekTest
  /-- In the loop, before `channel_receive`. -/
  | receive
  /-- In the statement under `channel_range`, with the value received. -/
  | body (value : Payload)
  | ended
  deriving DecidableEq, Repr

structure State where
  chan : Channel
  producer : Producer
  consumer : Consumer
  /-- What the loop body has been given, in order. -/
  seen : List Payload
  deriving DecidableEq, Repr

/-- The producer's next call.  A send that fails is tried again. -/
def produce (s : State) : Channels.Checked State :=
  match s.producer with
  | .sending (v :: rest) => do
    let (sent, c) ← channelSend s.chan v
    return { s with chan := c, producer := .sending (if sent then rest else v :: rest) }
  | .sending [] => return { s with chan := (channelClose s.chan).2, producer := .done }
  | .done => .error .disabled

/-- The consumer's next call, for items of `size` bytes. -/
def consume (size : ℕ) (s : State) : Channels.Checked State :=
  match s.consumer with
  | .closedTest =>
    return { s with consumer := if !channelClosed s.chan then .receive else .peekTest }
  | .peekTest => return { s with consumer := if channelPeek s.chan ≠ 0 then .receive else .ended }
  | .receive => do
    let (data, c) ← channelReceive s.chan size
    match data with
    | none => return { s with chan := c, consumer := .closedTest }
    | some v => return { s with chan := c, consumer := .body v }
  -- the body runs, and `goto L` leads back to the loop
  | .body v => return { s with seen := s.seen ++ [v], consumer := .closedTest }
  | .ended => .error .disabled

/-- A channel that was just allocated, the values to send and the loop. -/
def start (chan : Channel) (values : List Payload) : State where
  chan := chan
  producer := .sending values
  consumer := .closedTest
  seen := []

inductive Thread where
  | producer | consumer
  deriving DecidableEq, Repr

def move (size : ℕ) : Thread → State → Channels.Checked State
  | .producer => produce
  | .consumer => consume size

def system (size : ℕ) (chan : Channel) (values : List Payload) : System State :=
  .ofMoves (start chan values) (move size)

/-! ## Nothing is lost on the way -/

def Producer.unsent : Producer → List Payload
  | .sending values => values
  | .done => []

def Consumer.inHand : Consumer → List Payload
  | .body value => [value]
  | _ => []

/-- Every value is with the body, in the consumer's hand, in the channel or unsent. -/
structure Inv (size n : ℕ) (values : List Payload) (s : State) (first : ℕ)
    (items : List Payload) : Prop where
  holds : Holds s.chan n first items
  all : s.seen ++ s.consumer.inHand ++ items ++ s.producer.unsent = values
  sized : ∀ v ∈ values, v.length = size
  width : size ≤ s.chan.itemsize.toNat
  flag : s.chan.closed = true ↔ s.producer = .done
  closed : s.consumer = .peekTest → s.producer = .done
  ended : s.consumer = .ended → s.producer = .done ∧ items = []

section Steps

variable {size n : ℕ} {values : List Payload} {s : State} {first : ℕ} {items : List Payload}

theorem Inv.stored_size (inv : Inv size n values s first items) {v : Payload} (stored : v ∈ items) :
    v.length = size := by
  apply inv.sized
  rw [← inv.all]
  simp [stored]

theorem Inv.unsent_size (inv : Inv size n values s first items) {v : Payload}
    (unsent : v ∈ s.producer.unsent) : v.length = size := by
  apply inv.sized
  rw [← inv.all]
  simp [unsent]

/-- The state satisfies the invariant for some contents of the channel. -/
def Kept (size n : ℕ) (values : List Payload) (s : State) : Prop :=
  ∃ first items, Inv size n values s first items

/-- The producer: no assertion fails, and a step keeps the invariant. -/
theorem produce_keeps (inv : Inv size n values s first items) :
    Ensures (fun _ => False) (produce s) (Kept size n values) := by
  unfold produce
  cases sending : s.producer with
  | done => trivial
  | sending unsent =>
    have running : s.producer ≠ .done := by simp [sending]
    have stillOpen : s.consumer ≠ .peekTest := fun at' => running (inv.closed at')
    have notEnded : s.consumer ≠ .ended := fun at' => running (inv.ended at').1
    have all := inv.all
    simp only [sending, Producer.unsent] at all
    cases unsent with
    | nil =>
      refine ⟨first, items, ?_⟩
      have unset : s.chan.closed = false := by
        simpa [running] using inv.flag
      have closes : (channelClose s.chan).2 = { s.chan with closed := true } := by
        simp [channelClose_eq, Channel.setClosed, channelClosed, unset]
      rw [closes]
      constructor
      case holds => exact { inv.holds with }
      case all => exact all
      case sized => exact inv.sized
      case width => exact inv.width
      case flag => simp
      case closed => exact fun _ => rfl
      case ended => exact fun at' => absurd at' notEnded
    | cons v rest =>
      have length : v.length = size := inv.unsent_size (by simp [sending, Producer.unsent])
      have sends := channelSend_refines inv.holds (length.trans_le inv.width)
      rw [SendsAs] at sends
      split at sends
      · obtain ⟨c, sent, holds, -, closed, itemsize⟩ := sends
        simp only [sent, ok_bind]
        refine ⟨first, items ++ [v], ?_⟩
        constructor
        case holds => exact holds
        case all => simpa [Producer.unsent] using all
        case sized => exact inv.sized
        case width => exact itemsize ▸ inv.width
        case flag => simpa [closed, running] using inv.flag
        case closed => exact fun at' => absurd at' stillOpen
        case ended => exact fun at' => absurd at' notEnded
      · simp only [sends, ok_bind]
        refine ⟨first, items, ?_⟩
        constructor
        case holds => exact inv.holds
        case all => exact all
        case sized => exact inv.sized
        case width => exact inv.width
        case flag => simpa [running] using inv.flag
        case closed => exact fun at' => absurd at' stillOpen
        case ended => exact fun at' => absurd at' notEnded

/-- The consumer: no assertion fails, and a step keeps the invariant. -/
theorem consume_keeps (inv : Inv size n values s first items) :
    Ensures (fun _ => False) (consume size s) (Kept size n values) := by
  have all := inv.all
  unfold consume
  cases running : s.consumer with
  | ended => trivial
  | closedTest =>
    simp only [running, Consumer.inHand] at all
    cases closed : s.chan.closed with
    | false =>
      simp only [channelClosed, closed, Bool.not_false, if_true]
      refine ⟨first, items, ?_⟩
      exact { inv with all := all, closed := by simp, ended := by simp }
    | true =>
      simp only [channelClosed, closed, Bool.not_true, Bool.false_eq_true, if_false]
      refine ⟨first, items, ?_⟩
      exact { inv with all := all, closed := fun _ => inv.flag.mp closed, ended := by simp }
  | peekTest =>
    -- the channel is closed, so an empty channel is the end
    have done := inv.closed running
    have count := channelPeek_refines inv.holds
    simp only [running, Consumer.inHand] at all
    by_cases empty : channelPeek s.chan = 0
    · simp only [empty, ne_eq, not_true, if_false]
      refine ⟨first, items, ?_⟩
      have none : items = [] := by
        rw [empty] at count
        exact List.length_eq_zero_iff.mp count.symm
      exact { inv with all := all, closed := by simp, ended := fun _ => ⟨done, none⟩ }
    · simp only [empty, ne_eq, not_false_iff, if_true]
      refine ⟨first, items, ?_⟩
      exact { inv with all := all, closed := by simp, ended := by simp }
  | receive =>
    simp only [running, Consumer.inHand] at all
    have sized : ∀ x ∈ items.head?, size = x.length := by
      intro x first
      exact (inv.stored_size (List.mem_of_mem_head? first)).symm
    have receives := channelReceive_refines inv.holds sized
    cases items with
    | nil =>
      rw [show channelReceive s.chan size = .ok (none, s.chan) from receives]
      refine ⟨first, [], ?_⟩
      exact { inv with all := all, closed := by simp, ended := by simp }
    | cons x rest =>
      obtain ⟨c, received, holds, -, closed, itemsize⟩ := receives
      rw [received]
      refine ⟨first + 1, rest, ?_⟩
      constructor
      case holds => exact holds
      case all => simpa [Consumer.inHand] using all
      case sized => exact inv.sized
      case width => exact itemsize ▸ inv.width
      case flag => exact closed ▸ inv.flag
      case closed => simp
      case ended => simp
  | body v =>
    simp only [running, Consumer.inHand] at all
    refine ⟨first, items, ?_⟩
    exact { inv with all := by simpa [Consumer.inHand] using all, closed := by simp
                     ended := by simp }

theorem move_keeps (inv : Inv size n values s first items) (thread : Thread) :
    Ensures (fun _ => False) (move size thread s) (Kept size n values) := by
  cases thread with
  | producer => exact produce_keeps inv
  | consumer => exact consume_keeps inv

theorem start_kept {chan : Channel} (holds : Holds chan n first []) (isOpen : chan.closed = false)
    (sized : ∀ v ∈ values, v.length = size) (width : size ≤ chan.itemsize.toNat) :
    Kept size n values (start chan values) := by
  refine ⟨first, [], ?_⟩
  constructor
  case holds => exact holds
  case all => rfl
  case sized => exact sized
  case width => exact width
  case flag => simp [start, isOpen]
  case closed => simp [start]
  case ended => simp [start]

theorem reachable_kept {chan : Channel} (initial : Kept size n values (start chan values))
    (reached : (system size chan values).Reachable s) : Kept size n values s := by
  refine reached.invariant ?_ ?_
  · intro s same
    rw [show s = start chan values from same]
    exact initial
  · intro s s' _ kept step
    obtain ⟨first, items, inv⟩ := kept
    obtain ⟨thread, moved⟩ := step
    exact (move_keeps inv thread).value moved

end Steps

/-- For every interleaving, the loop body sees the values in the order sent, and all
of them once the loop has ended.  No assertion fails. -/
theorem channel_range_delivers (size n : UInt32) (fits : (n.toNat + 1) * size.toNat < 2 ^ 32)
    (double : 2 * (n.toNat + 1) ≤ 2 ^ 32) (impl : Impl) (memory : ℕ → UInt8) {width : ℕ}
    (small : width ≤ size.toNat) (values : List Payload) (sized : ∀ v ∈ values, v.length = width)
    {s : State}
    (reached : (system width (channelAlloc size n impl memory) values).Reachable s) :
    s.seen <+: values ∧ (s.consumer = .ended → s.seen = values) ∧
      ∀ thread fault, move width thread s ≠ .error (.fault fault) := by
  have fresh : Holds (channelAlloc size n impl memory) n.toNat 0 [] :=
    channelAlloc_holds fits double
  obtain ⟨first, items, inv⟩ := reachable_kept (start_kept fresh rfl sized small) reached
  refine ⟨?_, ?_, ?_⟩
  · rw [← inv.all, List.append_assoc, List.append_assoc]
    exact List.prefix_append _ _
  · intro ended
    obtain ⟨done, empty⟩ := inv.ended ended
    have all := inv.all
    simpa [ended, done, empty, Consumer.inHand, Producer.unsent] using all
  · intro thread fault failed
    exact (move_keeps inv thread).tolerates failed

/-- Two values through a ring with one place, the second while the consumer loops. -/
def drainSchedule : List Thread :=
  [.producer, .producer, .consumer, .consumer, .producer, .consumer, .producer] ++
    List.replicate 6 .consumer

theorem channel_range_delivers_two :
    (System.follow (move 1) drainSchedule
      (start (channelAlloc 1 1 .spsc fun _ => 0) [[3], [5]])).consumer = .ended ∧
    (System.follow (move 1) drainSchedule
      (start (channelAlloc 1 1 .spsc fun _ => 0) [[3], [5]])).seen = [[3], [5]] :=
  ⟨by decide, (channel_range_delivers 1 1 (by decide) (by decide) .spsc _ le_rfl [[3], [5]]
    (by decide) (System.follow_reachable drainSchedule)).2.1 (by decide)⟩

/-- The largest ring whose number of slots is an `unsigned int`.  Its item count
overflows: `size + 1` is zero. -/
def largeRing : Channel := channelAlloc 1 4294967294 .spsc fun _ => 0

def largeRingSent : Channel :=
  { largeRing with buffer := Bytes.patch largeRing.buffer 0 [7], tail := 1 }

theorem largeRing_send : channelSend largeRing [7] = .ok (true, largeRingSent) := by
  have inside : (largeRing.tail * largeRing.itemsize).toNat + [(7 : UInt8)].length ≤
      largeRing.buffer.length := by
    rw [largeRing, channelAlloc_length]
    decide
  have notFull : isFull largeRing = false := by decide
  have buffered : channelBuffered largeRing = true := by decide
  have short : [(7 : UInt8)].length ≤ largeRing.itemsize.toNat := by decide
  change channelSendSpsc largeRing [7] = _
  simp only [channelSendSpsc, buffered, notFull, check, short, copyIn_eq inside, ok_bind,
    Bool.not_true, Bool.not_false, Bool.false_eq_true, if_true, if_false]
  rfl

/-- The value sent before the channel was closed is never received: `size + tail` wraps around,
`channel_peek` counts no item, and the loop ends. -/
theorem large_ring_loses_value :
    ∃ s, (system 1 largeRing [[7]]).Reachable s ∧ s.consumer = .ended ∧ s.seen = [] := by
  let sent : State := { start largeRing [[7]] with chan := largeRingSent, producer := .sending [] }
  let closed : State :=
    { sent with chan := { largeRingSent with closed := true }, producer := .done }
  have sends : (system 1 largeRing [[7]]).Reachable sent := by
    refine (System.reachable_of_init rfl).tail ⟨.producer, ?_⟩
    simp only [move, produce, start, largeRing_send, ok_bind]
    rfl
  have closes : (system 1 largeRing [[7]]).Reachable closed := sends.tail ⟨.producer, rfl⟩
  have peeks : (system 1 largeRing [[7]]).Reachable { closed with consumer := .peekTest } :=
    closes.tail ⟨.consumer, rfl⟩
  have empty : channelPeek closed.chan = 0 := by decide
  refine ⟨{ closed with consumer := .ended }, peeks.tail ⟨.consumer, ?_⟩, rfl, rfl⟩
  simp only [move, consume, empty, ne_eq, not_true, if_false]
  rfl

end Tasking.ChannelRange
