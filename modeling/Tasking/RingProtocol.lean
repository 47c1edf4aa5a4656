import Mathlib.Data.Vector.Basic
import Mathlib.Logic.Function.Basic
import Tasking.Channel
import Tasking.Transition

/-!
The buffered channels of `channel_shm/channel.c` under concurrency: any number of
threads in `channel_send_mpmc` (as MPSC uses it) or one in `channel_send_spsc`, and
one in `channel_recv_mpsc`.  Every read of `head` or `tail`, every copy of an item
and every write of an index is a step of its own; memory is sequentially consistent.

The buffer is memory, and the address of a slot is computed in `unsigned int`.  A
channel whose buffer is too large for that (`Shape.Fits`) has slots outside the buffer.

Items are numbered in the order in which `tail` was published.  The two indices are
the counts of items published and of items taken, modulo the number of slots.  The
one thread that may move an index knows its value; of the other index it knows an
old value, which errs on the safe side (`ProducerOk`, `ConsumerOk`).
-/
namespace Tasking.RingProtocol
open Channels Fallible Transition Function

/-! ## The program -/

/-- What `channel_alloc(itemsize, n, impl)` is told about a buffered channel. -/
structure Shape where
  n : ℕ
  itemsize : ℕ
  deriving DecidableEq, Repr

/-- `bufsize`, the number of bytes that are allocated. -/
def Shape.bufsize (g : Shape) : ℕ := (g.n + 1) * g.itemsize % 2 ^ 32

/-- `index * chan->itemsize`, in `unsigned int`. -/
def Shape.offset (g : Shape) (index : ℕ) : ℕ := index * g.itemsize % 2 ^ 32

/-- The buffer can be addressed, and the items that are sent fit into a slot. -/
structure Shape.Fits (g : Shape) (size : ℕ) : Prop where
  buffer : (g.n + 1) * g.itemsize < 2 ^ 32
  item : size ≤ g.itemsize

/-- What is sent and received: `size` bytes, the third argument of every call. -/
abbrev Item (size : ℕ) := List.Vector UInt8 size

/-- `channel_send_mpmc` or `channel_send_spsc`. -/
inductive Mode where
  | mpsc | spsc
  deriving DecidableEq, Repr

/-- The evaluations of `IS_FULL`: before the lock, under it, and in the assertion. -/
inductive Test where
  | unlocked | locked | asserted
  deriving DecidableEq, Repr

/-- What a test has read of the two indices, in either order, which C leaves to the compiler. -/
inductive Reads where
  | neither
  | tail (t : ℕ)
  | head (h : ℕ)
  deriving DecidableEq, Repr

/-- Where a send stands.  Each access to what the threads share is a step of its own. -/
inductive SendPc (α : Type) where
  | idle
  | full (test : Test) (reads : Reads) (v : α)
  | lock (v : α)
  /-- Before reading `tail` for the address of the copy. -/
  | copyIndex (v : α)
  | copy (t : ℕ) (v : α)
  /-- Before reading `tail` to increment it. -/
  | incIndex (v : α)
  | publish (t : ℕ) (v : α)
  | unlock (ok : Bool)
  | returned (ok : Bool)
  deriving DecidableEq, Repr

/-- Where a receive stands. -/
inductive RecvPc (α : Type) where
  | idle
  | empty (asserted : Bool) (reads : Reads)
  | copyIndex
  | copy (h : ℕ)
  | incIndex (v : α)
  | publish (h : ℕ) (v : α)
  | returned (result : Option α)
  deriving DecidableEq, Repr

def SendPc.calling {α : Type} : SendPc α → Bool
  | .idle | .returned _ => false
  | _ => true

def RecvPc.calling {α : Type} : RecvPc α → Bool
  | .idle | .returned _ => false
  | _ => true

/-- A sending thread.  `sawFull` is a history variable: at some moment of the call,
up to its return, the ring held `n` items. -/
structure Producer (α : Type) where
  pc : SendPc α
  sawFull : Bool

/-- The receiving thread.  Two history variables: whether the ring was empty at some
moment of the call, and what the calls have returned so far. -/
structure Consumer (α : Type) where
  pc : RecvPc α
  sawEmpty : Bool
  results : List α

/-- The channel.  `sent` are the items in the order of publication of `tail`, and
`received` those taken in the order of publication of `head`. -/
structure Chan (ι α : Type) where
  buffer : ℕ → UInt8
  head : ℕ
  tail : ℕ
  tailLock : Option ι
  sent : List α
  received : List α

structure State (ι α : Type) where
  chan : Chan ι α
  producers : ι → Producer α
  consumer : Consumer α

variable {ι α : Type} {size : ℕ}

/-- The number of items in the ring. -/
def Chan.stored (c : Chan ι α) : ℕ := c.sent.length - c.received.length

/-- `NUM_ITEMS` for `size = n + 1`, in `unsigned int`. -/
def numItems (n tail head : ℕ) : ℕ := (n + 1 + tail + 2 ^ 32 - head) % 2 ^ 32 % (n + 1)

def isFull (n tail head : ℕ) : Bool := numItems n tail head == n

def isEmpty (head tail : ℕ) : Bool := head == tail

def inc (n i : ℕ) : ℕ := (i + 1) % 2 ^ 32 % (n + 1)

def Chan.item (g : Shape) (c : Chan ι (Item size)) (index : ℕ) : Item size :=
  ⟨Bytes.peek c.buffer (g.offset index) size, Bytes.length_peek _ _ _⟩

def Chan.put (g : Shape) (c : Chan ι (Item size)) (index : ℕ) (v : Item size) :
    Chan ι (Item size) :=
  { c with buffer := Bytes.poke c.buffer (g.offset index) v.toList }

/-- `memcpy(chan->buffer + index * chan->itemsize, data, size)`, with the assertion
before it.  A copy that leaves the buffer is a fault. -/
def Chan.copyIn (g : Shape) (c : Chan ι (Item size)) (index : ℕ) (v : Item size) :
    Channels.Checked (Chan ι (Item size)) := do
  check (size ≤ g.itemsize) .itemsize
  check (g.offset index + size ≤ g.bufsize) .bounds
  return c.put g index v

/-- `memcpy(data, chan->buffer + index * chan->itemsize, size)`. -/
def Chan.copyOut (g : Shape) (c : Chan ι (Item size)) (index : ℕ) :
    Channels.Checked (Item size) := do
  check (size ≤ g.itemsize) .itemsize
  check (g.offset index + size ≤ g.bufsize) .bounds
  return c.item g index

/-- What a thread does next: begin a call, or its next access.  Both indices are
read in a test, in the order chosen here. -/
inductive Act (α : Type) where
  | start (v : α)
  | readTail
  | readHead
  | go
  deriving DecidableEq, Repr

def State.goto [DecidableEq ι] (s : State ι α) (i : ι) (pc : SendPc α) : State ι α :=
  { s with producers := update s.producers i { s.producers i with pc := pc } }

/-- What a call that ends here gives to its caller. -/
def RecvPc.result {α : Type} : RecvPc α → List α
  | .returned r => r.toList
  | _ => []

def State.recvGoto (s : State ι α) (pc : RecvPc α) : State ι α :=
  { s with consumer := { s.consumer with
      pc := pc, results := s.consumer.results ++ pc.result } }

/-- After a test.  A ring that is full under the lock is no error, but one that is full at the
assertion is. -/
def afterTest (mode : Mode) (test : Test) (v : α) (full : Bool) : Channels.Checked (SendPc α) :=
  match test, full with
  | .unlocked, true => return .returned false
  | .unlocked, false =>
    match mode with
    | .mpsc => return .lock v
    | .spsc => return .full .asserted .neither v
  | .locked, true => return .unlock false
  | .locked, false => return .full .asserted .neither v
  | .asserted, true => .error (.fault .notFull)
  | .asserted, false => return .copyIndex v

/-- One access of the producer `i`. -/
def channelSendStep [DecidableEq ι] (mode : Mode) (g : Shape) (i : ι) (act : Act (Item size))
    (s : State ι (Item size)) : Channels.Checked (State ι (Item size)) :=
  match (s.producers i).pc, act with
  | .idle, .start v | .returned _, .start v =>
    return { s with producers := update s.producers i ⟨.full .unlocked .neither v, false⟩ }
  | .full test .neither v, .readTail => return s.goto i (.full test (.tail s.chan.tail) v)
  | .full test .neither v, .readHead => return s.goto i (.full test (.head s.chan.head) v)
  | .full test (.tail t) v, .readHead => do
    let pc ← afterTest mode test v (isFull g.n t s.chan.head)
    return s.goto i pc
  | .full test (.head h) v, .readTail => do
    let pc ← afterTest mode test v (isFull g.n s.chan.tail h)
    return s.goto i pc
  | .lock v, .go =>
    if s.chan.tailLock.isNone then
      return { s.goto i (.full .locked .neither v) with
        chan := { s.chan with tailLock := some i } }
    else .error .disabled
  | .copyIndex v, .go => return s.goto i (.copy s.chan.tail v)
  | .copy t v, .go => do
    let chan ← s.chan.copyIn g t v
    return { s.goto i (.incIndex v) with chan := chan }
  | .incIndex v, .go => return s.goto i (.publish s.chan.tail v)
  | .publish t v, .go =>
    return { s.goto i (match mode with
        | .mpsc => .unlock true
        | .spsc => .returned true) with
      chan := { s.chan with tail := inc g.n t, sent := s.chan.sent ++ [v] } }
  | .unlock ok, .go =>
    return { s.goto i (.returned ok) with chan := { s.chan with tailLock := none } }
  | _, _ => .error .disabled

/-- After `IS_EMPTY`. -/
def afterEmptyTest (asserted empty : Bool) : Channels.Checked (RecvPc α) :=
  match asserted, empty with
  | false, true => return .returned none
  | false, false => return .empty true .neither
  | true, true => .error (.fault .notEmpty)
  | true, false => return .copyIndex

/-- One access of the consumer; `start` is without a value. -/
def channelRecvStep (g : Shape) (act : Act Unit) (s : State ι (Item size)) :
    Channels.Checked (State ι (Item size)) :=
  match s.consumer.pc, act with
  | .idle, .start _ | .returned _, .start _ =>
    return { s with consumer := { s.consumer with pc := .empty false .neither, sawEmpty := false } }
  | .empty asserted .neither, .readTail => return s.recvGoto (.empty asserted (.tail s.chan.tail))
  | .empty asserted .neither, .readHead => return s.recvGoto (.empty asserted (.head s.chan.head))
  | .empty asserted (.tail t), .readHead => do
    let pc ← afterEmptyTest asserted (isEmpty s.chan.head t)
    return s.recvGoto pc
  | .empty asserted (.head h), .readTail => do
    let pc ← afterEmptyTest asserted (isEmpty h s.chan.tail)
    return s.recvGoto pc
  | .copyIndex, .go => return s.recvGoto (.copy s.chan.head)
  | .copy h, .go => do
    let v ← s.chan.copyOut g h
    return s.recvGoto (.incIndex v)
  | .incIndex v, .go => return s.recvGoto (.publish s.chan.head v)
  | .publish h v, .go =>
    return { s.recvGoto (.returned (some v)) with
      chan := { s.chan with head := inc g.n h, received := s.chan.received ++ [v] } }
  | _, _ => .error .disabled

/-! ## Interleaving -/

def Producer.observe (full : Bool) (p : Producer α) : Producer α :=
  if p.pc.calling then { p with sawFull := p.sawFull || full } else p

def Consumer.observe (empty : Bool) (p : Consumer α) : Consumer α :=
  if p.pc.calling then { p with sawEmpty := p.sawEmpty || empty } else p

/-- Every call in progress takes note of how full the ring is.  This is history: no step depends
on it. -/
def State.observe (n : ℕ) (s : State ι α) : State ι α where
  chan := s.chan
  producers i := (s.producers i).observe (s.chan.stored == n)
  consumer := s.consumer.observe (s.chan.stored == 0)

inductive Party (ι α : Type) where
  | producer (i : ι) (act : Act α)
  | consumer (act : Act Unit)

def move [DecidableEq ι] (mode : Mode) (g : Shape) (party : Party ι (Item size))
    (s : State ι (Item size)) : Channels.Checked (State ι (Item size)) := do
  let s ← match party with
    | .producer i act => channelSendStep mode g i act s
    | .consumer act => channelRecvStep g act s
  return s.observe g.n

/-- An empty channel nobody uses; `memory` is what its buffer contains. -/
def initial (memory : ℕ → UInt8) : State ι α where
  chan := ⟨memory, 0, 0, none, [], []⟩
  producers _ := ⟨.idle, false⟩
  consumer := ⟨.idle, false, []⟩

def system [DecidableEq ι] (mode : Mode) (g : Shape) (memory : ℕ → UInt8) :
    System (State ι (Item size)) :=
  .ofMoves (initial memory) (move mode g)

/-! ## Indices -/

section Indices

variable {n h t : ℕ}

/-- No overflow: `NUM_ITEMS` is the number of items between two counts. -/
theorem numItems_eq (double : 2 * (n + 1) ≤ 2 ^ 32) (order : h ≤ t) (room : t ≤ h + n) :
    numItems n (t % (n + 1)) (h % (n + 1)) = t - h := by
  have headLt : h % (n + 1) < n + 1 := Nat.mod_lt _ (Nat.succ_pos n)
  have tailLt : t % (n + 1) < n + 1 := Nat.mod_lt _ (Nat.succ_pos n)
  have exact : (n + 1 + t % (n + 1) + 2 ^ 32 - h % (n + 1)) % 2 ^ 32 =
      n + 1 + t % (n + 1) - h % (n + 1) := by omega
  rw [numItems, exact]
  exact Ring.distance_eq order (by omega)

theorem isFull_iff (double : 2 * (n + 1) ≤ 2 ^ 32) (order : h ≤ t) (room : t ≤ h + n) :
    isFull n (t % (n + 1)) (h % (n + 1)) = true ↔ t = h + n := by
  rw [isFull, beq_iff_eq, numItems_eq double order room]
  omega

theorem isEmpty_iff (order : h ≤ t) (room : t ≤ h + n) :
    isEmpty (h % (n + 1)) (t % (n + 1)) = true ↔ t = h := by
  rw [isEmpty, beq_iff_eq]
  constructor
  · intro same
    exact (Ring.slot_injective order (by omega) same).symm
  · rintro rfl
    rfl

theorem inc_eq (double : 2 * (n + 1) ≤ 2 ^ 32) : inc n (t % (n + 1)) = (t + 1) % (n + 1) := by
  have small : t % (n + 1) < n + 1 := Nat.mod_lt _ (Nat.succ_pos n)
  have exact : (t % (n + 1) + 1) % 2 ^ 32 = t % (n + 1) + 1 := by omega
  rw [inc, exact, Ring.slot_succ]

end Indices

/-! ## What each thread knows -/

/-- The indices and slots of a channel whose items are `sent`, of which the first
ones were taken.  The indices do not depend on what the slots contain, so that they are
right also where the slots overlap. -/
structure ChanOk (g : Shape) (c : Chan ι (Item size)) : Prop where
  order : c.received.length ≤ c.sent.length
  room : c.sent.length ≤ c.received.length + g.n
  head : c.head = c.received.length % (g.n + 1)
  tail : c.tail = c.sent.length % (g.n + 1)
  slots : g.Fits size → ∀ k x, c.received.length ≤ k → c.sent[k]? = some x →
    c.item g (k % (g.n + 1)) = x
  returned : g.Fits size → c.received = c.sent.take c.received.length

def Chan.Room (n : ℕ) (c : Chan ι α) : Prop := c.sent.length < c.received.length + n

def Chan.Nonempty (c : Chan ι α) : Prop := c.received.length < c.sent.length

/-- The lock is held, where there is one. -/
def Owns (mode : Mode) (c : Chan ι α) (i : ι) : Prop := mode = .mpsc → c.tailLock = some i

/-- What the thread that may move `tail` has read: `tail` is as it was, and `head` may
have moved on.  If the ring was full when `head` was read, the call saw it full.
In the assertion the ring is known to have room. -/
def FullReads (n : ℕ) (c : Chan ι α) (saw asserted : Bool) : Reads → Prop
  | .neither => True
  | .tail t => t = c.tail
  | .head h => ∃ k ≤ c.received.length, h = k % (n + 1) ∧ c.sent.length ≤ k + n ∧
      (c.sent.length = k + n → saw = true) ∧ (asserted = true → c.sent.length < k + n)

/-- What the consumer has read: `head` is as it was, and `tail` may have moved on. -/
def EmptyReads (n : ℕ) (c : Chan ι α) (saw asserted : Bool) : Reads → Prop
  | .neither => True
  | .head h => h = c.head
  | .tail t => ∃ k ≤ c.sent.length, c.received.length ≤ k ∧ k ≤ c.received.length + n ∧
      t = k % (n + 1) ∧ (k = c.received.length → saw = true) ∧
      (asserted = true → c.received.length < k)

def SendOk (mode : Mode) (g : Shape) (c : Chan ι (Item size)) (i : ι) (saw : Bool) :
    SendPc (Item size) → Prop
  | .idle | .lock _ => True
  | .full .unlocked reads _ => mode = .spsc → FullReads g.n c saw false reads
  | .full .locked reads _ => Owns mode c i ∧ FullReads g.n c saw false reads
  | .full .asserted reads _ => Owns mode c i ∧ c.Room g.n ∧ FullReads g.n c saw true reads
  | .copyIndex _ => Owns mode c i ∧ c.Room g.n
  | .copy t _ => Owns mode c i ∧ c.Room g.n ∧ t = c.tail
  | .incIndex v => Owns mode c i ∧ c.Room g.n ∧ (g.Fits size → c.item g c.tail = v)
  | .publish t v => Owns mode c i ∧ c.Room g.n ∧ t = c.tail ∧ (g.Fits size → c.item g c.tail = v)
  | .unlock ok => Owns mode c i ∧ (ok = false → saw = true)
  | .returned ok => mode = .spsc → ok = false → saw = true

def RecvOk (g : Shape) (c : Chan ι (Item size)) (saw : Bool) : RecvPc (Item size) → Prop
  | .idle => True
  | .empty asserted reads => (asserted = true → c.Nonempty) ∧ EmptyReads g.n c saw asserted reads
  | .copyIndex => c.Nonempty
  | .copy h => c.Nonempty ∧ h = c.head
  | .incIndex v => c.Nonempty ∧ (g.Fits size → c.sent[c.received.length]? = some v)
  | .publish h v =>
    c.Nonempty ∧ (g.Fits size → c.sent[c.received.length]? = some v) ∧ h = c.head
  | .returned result => result = none → saw = true

structure Inv (mode : Mode) (g : Shape) (s : State ι (Item size)) : Prop where
  chan : ChanOk g s.chan
  producers : ∀ i, SendOk mode g s.chan i (s.producers i).sawFull (s.producers i).pc
  consumer : RecvOk g s.chan s.consumer.sawEmpty s.consumer.pc
  sawFull : ∀ i, (s.producers i).pc.calling = true → s.chan.stored = g.n →
    (s.producers i).sawFull = true
  sawEmpty : s.consumer.pc.calling = true → s.chan.stored = 0 → s.consumer.sawEmpty = true

/-! ### Moments seen stay seen -/

section Saw

variable {mode : Mode} {n : ℕ} {g : Shape} {c : Chan ι (Item size)} {i : ι} {saw saw' : Bool}

theorem FullReads.mono (more : saw = true → saw' = true) {asserted : Bool} {reads : Reads}
    (ok : FullReads n c saw asserted reads) : FullReads n c saw' asserted reads := by
  cases reads with
  | neither => trivial
  | tail t => exact ok
  | head h =>
    obtain ⟨k, old, index, room, seen, strict⟩ := ok
    exact ⟨k, old, index, room, fun full => more (seen full), strict⟩

theorem EmptyReads.mono (more : saw = true → saw' = true) {asserted : Bool} {reads : Reads}
    (ok : EmptyReads n c saw asserted reads) : EmptyReads n c saw' asserted reads := by
  cases reads with
  | neither => trivial
  | head h => exact ok
  | tail t =>
    obtain ⟨k, old, order, room, index, seen, strict⟩ := ok
    exact ⟨k, old, order, room, index, fun empty => more (seen empty), strict⟩

theorem SendOk.mono (more : saw = true → saw' = true) {pc : SendPc (Item size)}
    (ok : SendOk mode g c i saw pc) : SendOk mode g c i saw' pc := by
  cases pc with
  | full test reads v =>
    cases test with
    | unlocked => exact fun one => (ok one).mono more
    | locked => exact ⟨ok.1, ok.2.mono more⟩
    | asserted => exact ⟨ok.1, ok.2.1, ok.2.2.mono more⟩
  | unlock result => exact ⟨ok.1, fun failed => more (ok.2 failed)⟩
  | returned result => exact fun one failed => more (ok one failed)
  | _ => exact ok

theorem RecvOk.mono (more : saw = true → saw' = true) {pc : RecvPc (Item size)}
    (ok : RecvOk g c saw pc) : RecvOk g c saw' pc := by
  cases pc with
  | empty asserted reads => exact ⟨ok.1, ok.2.mono more⟩
  | returned result => exact fun failed => more (ok failed)
  | _ => exact ok

@[simp] theorem Producer.observe_pc (full : Bool) (p : Producer α) : (p.observe full).pc =
    p.pc := by
  unfold Producer.observe
  split <;> rfl

@[simp] theorem Consumer.observe_results (empty : Bool) (p : Consumer α) :
    (p.observe empty).results = p.results := by
  unfold Consumer.observe
  split <;> rfl

@[simp] theorem Consumer.observe_pc (empty : Bool) (p : Consumer α) :
    (p.observe empty).pc = p.pc := by
  unfold Consumer.observe
  split <;> rfl

theorem Producer.observe_saw (full : Bool) {p : Producer α} (seen : p.sawFull = true) :
    (p.observe full).sawFull = true := by
  unfold Producer.observe
  split <;> simp [seen]

theorem Consumer.observe_saw (empty : Bool) {p : Consumer α} (seen : p.sawEmpty = true) :
    (p.observe empty).sawEmpty = true := by
  unfold Consumer.observe
  split <;> simp [seen]

/-- The history variables are brought up to date after every step. -/
theorem Inv.observed {s : State ι (Item size)} (chan : ChanOk g s.chan)
    (producers : ∀ i, SendOk mode g s.chan i (s.producers i).sawFull (s.producers i).pc)
    (consumer : RecvOk g s.chan s.consumer.sawEmpty s.consumer.pc) :
    Inv mode g (s.observe g.n) where
  chan := chan
  producers i := by
    have ok := (producers i).mono (Producer.observe_saw (s.chan.stored == g.n))
    simpa [State.observe] using ok
  consumer := by
    have ok := consumer.mono (Consumer.observe_saw (s.chan.stored == 0))
    simpa [State.observe] using ok
  sawFull i calling full := by
    simp only [State.observe, Producer.observe_pc] at calling full ⊢
    simp [Producer.observe, calling, full]
  sawEmpty calling empty := by
    simp only [State.observe, Consumer.observe_pc] at calling empty ⊢
    simp [Consumer.observe, calling, empty]

end Saw

/-! ## The steps of a producer -/

section Sending

variable {mode : Mode} {g : Shape} {s : State ι (Item size)} {i : ι} {c : Chan ι (Item size)}
  {v : Item size} {k : ℕ}

/-- Of a thread that does not hold the lock nothing is known about the channel, so that nothing
the holder does can make it wrong. -/
theorem SendOk.unowned {c c' : Chan ι (Item size)} {saw : Bool} {pc : SendPc (Item size)}
    (ok : SendOk .mpsc g c i saw pc) (other : c.tailLock ≠ some i) :
    SendOk .mpsc g c' i saw pc := by
  cases pc with
  | idle => trivial
  | lock v => trivial
  | returned result => exact fun wrong => absurd wrong (by simp)
  | full test reads v =>
    cases test with
    | unlocked => exact fun wrong => absurd wrong (by simp)
    | locked => exact absurd (ok.1 rfl) other
    | asserted => exact absurd (ok.1 rfl) other
  | copyIndex v => exact absurd (ok.1 rfl) other
  | copy t v => exact absurd (ok.1 rfl) other
  | incIndex v => exact absurd (ok.1 rfl) other
  | publish t v => exact absurd (ok.1 rfl) other
  | unlock result => exact absurd (ok.1 rfl) other

/-- The other producers, when `i` changes the channel while nobody else may. -/
theorem Inv.others (inv : Inv mode g s) (single : mode = .spsc → Subsingleton ι)
    (free : mode = .mpsc → s.chan.tailLock = none ∨ s.chan.tailLock = some i)
    {c' : Chan ι (Item size)}
    {j : ι} (differ : j ≠ i) :
    SendOk mode g c' j (s.producers j).sawFull (s.producers j).pc := by
  cases mode with
  | spsc => exact absurd ((single rfl).elim j i) differ
  | mpsc =>
    apply (inv.producers j).unowned
    rcases free rfl with none | own
    · simp [none]
    · simp [own, differ.symm]

/-- The end of a test by the thread that may move `tail`: if the ring looks full, the
call saw it full, and if not, there is room. -/
theorem Inv.test (inv : Inv mode g s) (double : 2 * (g.n + 1) ≤ 2 ^ 32) {asserted : Bool}
    {t h : ℕ} (calling : (s.producers i).pc.calling = true)
    (read : FullReads g.n s.chan (s.producers i).sawFull asserted (.tail t) ∧ h = s.chan.head ∨
      FullReads g.n s.chan (s.producers i).sawFull asserted (.head h) ∧ t = s.chan.tail) :
    if isFull g.n t h then (s.producers i).sawFull = true ∧ (asserted = true → ¬ s.chan.Room g.n)
    else s.chan.Room g.n := by
  have ok := inv.chan
  rcases read with ⟨tail, rfl⟩ | ⟨⟨k, old, rfl, room, seen, strict⟩, rfl⟩
  · -- `tail` is current, and so is `head`
    obtain rfl : t = s.chan.tail := tail
    have full := isFull_iff double ok.order ok.room
    rw [← ok.head, ← ok.tail] at full
    split
    · next looks =>
      have filled := full.mp looks
      refine ⟨inv.sawFull i calling ?_, fun _ more => ?_⟩
      · rw [Chan.stored]
        omega
      · rw [Chan.Room] at more
        omega
    · next looks =>
      have unfilled : ¬ s.chan.sent.length = s.chan.received.length + g.n :=
        fun filled => looks (full.mpr filled)
      have room := ok.room
      rw [Chan.Room]
      omega
  · -- `head` was read when no fewer items were stored
    have order := ok.order
    have full := @isFull_iff g.n k s.chan.sent.length double (by omega) room
    rw [← ok.tail] at full
    split
    · next looks =>
      have filled := full.mp looks
      refine ⟨seen filled, fun asserts => ?_⟩
      have := strict asserts
      omega
    · next looks =>
      have unfilled : ¬ s.chan.sent.length = k + g.n := fun filled => looks (full.mpr filled)
      rw [Chan.Room]
      omega

theorem Inv.tested (inv : Inv mode g s) (double : 2 * (g.n + 1) ≤ 2 ^ 32) {test : Test}
    {reads : Reads} (here : (s.producers i).pc = .full test reads v) {t h : ℕ}
    (read : reads = .tail t ∧ h = s.chan.head ∨ reads = .head h ∧ t = s.chan.tail) :
    Ensures (fun _ => ¬ g.Fits size) (afterTest mode test v (isFull g.n t h))
      (SendOk mode g s.chan i (s.producers i).sawFull) := by
  have ok := inv.producers i
  rw [here] at ok
  have calling : (s.producers i).pc.calling = true := by rw [here]; rfl
  have known : ∀ asserted, FullReads g.n s.chan (s.producers i).sawFull asserted reads →
      if isFull g.n t h then (s.producers i).sawFull = true ∧ (asserted = true → ¬ s.chan.Room g.n)
      else s.chan.Room g.n := by
    intro asserted reading
    apply inv.test double calling
    rcases read with ⟨rfl, now⟩ | ⟨rfl, now⟩
    · exact .inl ⟨reading, now⟩
    · exact .inr ⟨reading, now⟩
  cases test with
  | unlocked =>
    cases mode with
    | mpsc =>
      cases isFull g.n t h with
      | true => exact fun wrong => absurd wrong (by simp)
      | false => trivial
    | spsc =>
      have result := known false (ok rfl)
      cases looks : isFull g.n t h with
      | true =>
        rw [if_pos looks] at result
        exact fun _ _ => result.1
      | false =>
        rw [if_neg (by simp [looks])] at result
        exact ⟨fun wrong => absurd wrong (by simp), result, trivial⟩
  | locked =>
    have result := known false ok.2
    cases looks : isFull g.n t h with
    | true =>
      rw [if_pos looks] at result
      exact ⟨ok.1, fun _ => result.1⟩
    | false =>
      rw [if_neg (by simp [looks])] at result
      exact ⟨ok.1, result, trivial⟩
  | asserted =>
    have result := known true ok.2.2
    cases looks : isFull g.n t h with
    | true =>
      rw [if_pos looks] at result
      exact absurd ok.2.1 (result.2 rfl)
    | false => exact ⟨ok.1, ok.2.1⟩

/-- The slot behind the last item is inside the buffer. -/
theorem Shape.Fits.slot_end (fits : g.Fits size) (inside : k < g.n + 1) :
    g.offset k = k * g.itemsize ∧ (k + 1) * g.itemsize ≤ g.bufsize := by
  have last : (k + 1) * g.itemsize ≤ (g.n + 1) * g.itemsize := Nat.mul_le_mul_right _ inside
  have before : k * g.itemsize ≤ (k + 1) * g.itemsize := Nat.mul_le_mul_right _ (Nat.le_succ k)
  have bound := fits.buffer
  rw [Shape.offset, Shape.bufsize, Nat.mod_eq_of_lt bound, Nat.mod_eq_of_lt (by omega)]
  exact ⟨rfl, last⟩

theorem Shape.Fits.slot_inside (fits : g.Fits size) (inside : k < g.n + 1) :
    g.offset k + size ≤ g.bufsize := by
  obtain ⟨start, last⟩ := fits.slot_end inside
  have item := fits.item
  rw [Nat.succ_mul] at last
  omega

theorem Shape.Fits.slots_disjoint {j k : ℕ} (fits : g.Fits size) (first : j < g.n + 1)
    (second : k < g.n + 1) (differ : j ≠ k) :
    g.offset j + size ≤ g.offset k ∨ g.offset k + size ≤ g.offset j := by
  have item := fits.item
  rw [(fits.slot_end first).1, (fits.slot_end second).1]
  rcases Nat.lt_or_gt_of_ne differ with below | above
  · have order : (j + 1) * g.itemsize ≤ k * g.itemsize := Nat.mul_le_mul_right _ below
    rw [Nat.succ_mul] at order
    omega
  · have order : (k + 1) * g.itemsize ≤ j * g.itemsize := Nat.mul_le_mul_right _ above
    rw [Nat.succ_mul] at order
    omega

theorem Chan.item_put_same :
    (c.put g k v).item g k = v := by
  apply List.Vector.toList_injective
  have read := @Bytes.peek_poke_same _ v.toList c.buffer (g.offset k)
  rwa [v.toList_length] at read

theorem Chan.item_put_other {j k : ℕ} (fits : g.Fits size) (first : j < g.n + 1)
    (second : k < g.n + 1) (differ : j ≠ k) :
    (c.put g k v).item g j = c.item g j := by
  apply List.Vector.toList_injective
  apply Bytes.peek_poke_apart
  rw [v.toList_length]
  exact fits.slots_disjoint first second differ

theorem ChanOk.head_lt (ok : ChanOk g c) : c.head < g.n + 1 := by
  rw [ok.head]
  exact Nat.mod_lt _ (Nat.succ_pos g.n)

theorem ChanOk.tail_lt (ok : ChanOk g c) : c.tail < g.n + 1 := by
  rw [ok.tail]
  exact Nat.mod_lt _ (Nat.succ_pos g.n)

/-- Writing the slot at `tail`, which holds no item. -/
theorem ChanOk.write (ok : ChanOk g c) (room : c.Room g.n) (v : Item size) :
    ChanOk g (c.put g c.tail v) := by
  refine ⟨ok.order, ok.room, ok.head, ok.tail, ?_, ok.returned⟩
  intro fits k x (kept : c.received.length ≤ k) stored
  have below : k < c.sent.length := (List.getElem?_eq_some_iff.mp stored).1
  rw [Chan.Room] at room
  have apart : k % (g.n + 1) ≠ c.tail := by
    rw [ok.tail]
    exact Ring.slot_ne below (by omega)
  rw [Chan.item_put_other fits (Nat.mod_lt _ (Nat.succ_pos g.n)) ok.tail_lt apart]
  exact ok.slots fits k x kept stored

theorem ChanOk.publish (ok : ChanOk g c) (double : 2 * (g.n + 1) ≤ 2 ^ 32) (room : c.Room g.n)
    (written : g.Fits size → c.item g c.tail = v) :
    ChanOk g { c with tail := inc g.n c.tail, sent := c.sent ++ [v] } where
  order := by
    have order := ok.order
    simp only [List.length_append, List.length_singleton]
    omega
  room := by
    rw [Chan.Room] at room
    simp only [List.length_append, List.length_singleton]
    omega
  head := ok.head
  tail := by
    simp only [List.length_append, List.length_singleton, ok.tail, inc_eq double]
  slots := by
    intro fits k x kept stored
    rcases Nat.lt_trichotomy k c.sent.length with old | last | beyond
    · rw [List.getElem?_append_left old] at stored
      exact ok.slots fits k x kept stored
    · subst last
      rw [List.getElem?_append_right le_rfl, Nat.sub_self] at stored
      cases stored
      rw [← ok.tail]
      exact written fits
    · rw [List.getElem?_eq_none (by simp; omega)] at stored
      cases stored
  returned := by
    intro fits
    rw [List.take_append_of_le_length ok.order]
    exact ok.returned fits

theorem copyIn_spec (inside : k < g.n + 1) {post : Chan ι (Item size) → Prop}
    (put : post (c.put g k v)) :
    Ensures (fun _ => ¬ g.Fits size) (c.copyIn g k v) post := by
  rw [Chan.copyIn, ensures_bind, ensures_check]
  refine ⟨fun _ => ?_, fun large fits => large fits.item⟩
  rw [ensures_bind, ensures_check]
  exact ⟨fun _ => put, fun outside fits => outside (fits.slot_inside inside)⟩

/-- A copy changes the buffer only. -/
theorem copyIn_frame {post : Chan ι (Item size) → Prop}
    (kept : ∀ buffer, post { c with buffer := buffer }) :
    Ensures (fun _ => True) (c.copyIn g k v) post := by
  simp only [Chan.copyIn, ensures_bind, ensures_check]
  exact ⟨fun _ => ⟨fun _ => kept _, fun _ => trivial⟩, fun _ => trivial⟩

theorem copyOut_spec (inside : k < g.n + 1) {post : Item size → Prop} (read : post (c.item g k)) :
    Ensures (fun _ => ¬ g.Fits size) (c.copyOut g k) post := by
  rw [Chan.copyOut, ensures_bind, ensures_check]
  refine ⟨fun _ => ?_, fun large fits => large fits.item⟩
  rw [ensures_bind, ensures_check]
  exact ⟨fun _ => read, fun outside fits => outside (fits.slot_inside inside)⟩

/-- The consumer does not mind more items: a ring that it found not to be empty is still not
empty. -/
theorem RecvOk.publish {saw : Bool} {pc : RecvPc (Item size)} (ok : RecvOk g c saw pc) {t : ℕ} :
    RecvOk g { c with tail := t, sent :=
    c.sent ++ [v] } saw pc := by
  have longer : c.sent.length ≤ (c.sent ++ [v]).length := by simp
  have kept : ∀ {x : Item size}, c.sent[c.received.length]? = some x →
      (c.sent ++ [v])[c.received.length]? = some x := by
    intro x stored
    rw [List.getElem?_append_left (List.getElem?_eq_some_iff.mp stored).1]
    exact stored
  cases pc with
  | idle => trivial
  | empty asserted reads =>
    refine ⟨fun asserts => (ok.1 asserts).trans_le longer, ?_⟩
    cases reads with
    | neither => trivial
    | head h => exact ok.2
    | tail t =>
      obtain ⟨k, old, rest⟩ := ok.2
      exact ⟨k, old.trans longer, rest⟩
  | copyIndex => exact Nat.lt_of_lt_of_le ok longer
  | copy h => exact ⟨Nat.lt_of_lt_of_le ok.1 longer, ok.2⟩
  | incIndex x => exact ⟨Nat.lt_of_lt_of_le ok.1 longer, fun fits => kept (ok.2 fits)⟩
  | publish h x =>
    exact ⟨Nat.lt_of_lt_of_le ok.1 longer, fun fits => kept (ok.2.1 fits), ok.2.2⟩
  | returned result => exact ok

variable [DecidableEq ι]

/-- A step of producer `i` that leads to `pc'` and changes the channel to `c'`. -/
theorem inv_of_send {c' : Chan ι (Item size)} {pc' : SendPc (Item size)} {saw' : Bool}
    (chan : ChanOk g c') (own : SendOk mode g c' i saw' pc')
    (others : ∀ j, j ≠ i → SendOk mode g c' j (s.producers j).sawFull (s.producers j).pc)
    (consumer : RecvOk g c' s.consumer.sawEmpty s.consumer.pc) :
    Inv mode g (State.observe g.n
      ⟨c', update s.producers i ⟨pc', saw'⟩, s.consumer⟩) := by
  apply Inv.observed chan _ consumer
  intro j
  by_cases same : j = i
  · subst same
    simpa using own
  · simpa [same] using others j same

theorem Inv.sends_locally (inv : Inv mode g s) {pc' : SendPc (Item size)} {saw' : Bool}
    (own : SendOk mode g s.chan i saw' pc') :
    Inv mode g (State.observe g.n
      ⟨s.chan, update s.producers i ⟨pc', saw'⟩, s.consumer⟩) :=
  inv_of_send inv.chan own (fun j _ => inv.producers j) inv.consumer

/-- One step of a producer: no assertion fails, and the invariant is kept. -/
theorem channelSendStep_keeps (inv : Inv mode g s) (double : 2 * (g.n + 1) ≤ 2 ^ 32)
    (single : mode = .spsc → Subsingleton ι) (i : ι) (act : Act (Item size)) :
    Ensures (fun _ => ¬ g.Fits size) (channelSendStep mode g i act s)
      (fun s' => Inv mode g (s'.observe g.n)) := by
  have ok := inv.producers i
  unfold channelSendStep
  split
  case h_1 v here => exact inv.sends_locally (fun _ => trivial)
  case h_2 ok v here => exact inv.sends_locally (fun _ => trivial)
  case h_3 test v here =>
    rw [here] at ok
    apply inv.sends_locally
    cases test with
    | unlocked => exact fun _ => rfl
    | locked => exact ⟨ok.1, rfl⟩
    | asserted => exact ⟨ok.1, ok.2.1, rfl⟩
  case h_4 test v here =>
    -- what is read of `head` now is a lower bound from here on
    have calling : (s.producers i).pc.calling = true := by rw [here]; rfl
    have seen : s.chan.sent.length = s.chan.received.length + g.n →
        (s.producers i).sawFull = true := by
      intro full
      apply inv.sawFull i calling
      rw [Chan.stored]
      omega
    rw [here] at ok
    apply inv.sends_locally
    cases test with
    | unlocked =>
      exact fun _ => ⟨_, le_rfl, inv.chan.head, inv.chan.room, seen, fun wrong => by cases wrong⟩
    | locked =>
      exact ⟨ok.1, _, le_rfl, inv.chan.head, inv.chan.room, seen, fun wrong => by cases wrong⟩
    | asserted =>
      exact ⟨ok.1, ok.2.1, _, le_rfl, inv.chan.head, inv.chan.room, seen, fun _ => ok.2.1⟩
  case h_5 test t v here =>
    rw [ensures_bind]
    apply (inv.tested double here (.inl ⟨rfl, rfl⟩)).mono
    intro pc own
    exact inv.sends_locally own
  case h_6 test h v here =>
    rw [ensures_bind]
    apply (inv.tested double here (.inr ⟨rfl, rfl⟩)).mono
    intro pc own
    exact inv.sends_locally own
  case h_7 v here =>
    split
    · next unlocked =>
      have none : s.chan.tailLock = none := Option.isNone_iff_eq_none.mp unlocked
      apply inv_of_send
      · exact { inv.chan with }
      · exact ⟨fun _ => rfl, trivial⟩
      · intro j differ
        exact inv.others single (fun _ => .inl none) differ
      · exact inv.consumer
    · trivial
  case h_8 v here =>
    rw [here] at ok
    exact inv.sends_locally ⟨ok.1, ok.2, rfl⟩
  case h_9 t v here =>
    rw [here] at ok
    obtain ⟨owns, room, rfl⟩ := ok
    rw [ensures_bind]
    apply copyIn_spec inv.chan.tail_lt
    apply inv_of_send
    · exact inv.chan.write room v
    · exact ⟨owns, room, fun _ => Chan.item_put_same⟩
    · intro j differ
      exact inv.others single (fun locking => .inr (owns locking)) differ
    · exact inv.consumer
  case h_10 v here =>
    rw [here] at ok
    exact inv.sends_locally ⟨ok.1, ok.2.1, rfl, ok.2.2⟩
  case h_11 t v here =>
    rw [here] at ok
    obtain ⟨owns, room, rfl, written⟩ := ok
    apply inv_of_send
    · exact inv.chan.publish double room written
    · cases mode with
      | mpsc => exact ⟨owns, fun wrong => by cases wrong⟩
      | spsc => exact fun _ wrong => by cases wrong
    · intro j differ
      exact inv.others single (fun locking => .inr (owns locking)) differ
    · exact inv.consumer.publish
  case h_12 result here =>
    rw [here] at ok
    apply inv_of_send
    · exact { inv.chan with }
    · exact fun _ failed => ok.2 failed
    · intro j differ
      exact inv.others single (fun locking => .inr (ok.1 locking)) differ
    · exact inv.consumer
  case h_13 => trivial

end Sending

/-! ## The steps of the consumer -/

section Receiving

variable {mode : Mode} {g : Shape} {s : State ι (Item size)}

theorem Inv.emptyTest (inv : Inv mode g s) {asserted : Bool} {reads : Reads}
    (here : s.consumer.pc = .empty asserted reads) {h t : ℕ}
    (read : reads = .tail t ∧ h = s.chan.head ∨ reads = .head h ∧ t = s.chan.tail) :
    Ensures (fun _ => ¬ g.Fits size) (@afterEmptyTest (Item size) asserted (isEmpty h t))
      (RecvOk g s.chan s.consumer.sawEmpty) := by
  have ok := inv.consumer
  rw [here] at ok
  have calling : s.consumer.pc.calling = true := by rw [here]; rfl
  have known : if isEmpty h t then s.consumer.sawEmpty = true ∧ asserted = false
      else s.chan.Nonempty := by
    have order := inv.chan.order
    rcases read with ⟨rfl, rfl⟩ | ⟨rfl, rfl⟩
    · obtain ⟨k, old, order', room, rfl, seen, strict⟩ := ok.2
      have empty := isEmpty_iff order' room
      rw [← inv.chan.head] at empty
      split
      · next looks =>
        have drained := empty.mp looks
        refine ⟨seen drained, ?_⟩
        cases asserted with
        | false => rfl
        | true => exact absurd (strict rfl) (by omega)
      · next looks =>
        have more : ¬ k = s.chan.received.length := fun drained => looks (empty.mpr drained)
        rw [Chan.Nonempty]
        omega
    · obtain rfl : h = s.chan.head := ok.2
      have empty := isEmpty_iff order inv.chan.room
      rw [← inv.chan.head, ← inv.chan.tail] at empty
      split
      · next looks =>
        have drained := empty.mp looks
        refine ⟨inv.sawEmpty calling ?_, ?_⟩
        · rw [Chan.stored]
          omega
        · cases asserted with
          | false => rfl
          | true =>
            have more := ok.1 rfl
            rw [Chan.Nonempty] at more
            omega
      · next looks =>
        have more : ¬ s.chan.sent.length = s.chan.received.length :=
          fun drained => looks (empty.mpr drained)
        rw [Chan.Nonempty]
        omega
  cases looks : isEmpty h t with
  | true =>
    rw [if_pos looks] at known
    rw [known.2]
    exact fun _ => known.1
  | false =>
    rw [if_neg (by simp [looks])] at known
    cases asserted with
    | false => exact ⟨fun _ => known, trivial⟩
    | true => exact known

theorem ChanOk.take {c : Chan ι (Item size)} (ok : ChanOk g c) (double : 2 * (g.n + 1) ≤ 2 ^ 32)
    (more : c.Nonempty) {v : Item size}
    (oldest : g.Fits size → c.sent[c.received.length]? = some v) :
    ChanOk g { c with head := inc g.n c.head, received := c.received ++ [v] } where
  order := by
    rw [Chan.Nonempty] at more
    simp only [List.length_append, List.length_singleton]
    omega
  room := by
    have room := ok.room
    simp only [List.length_append, List.length_singleton]
    omega
  head := by
    simp only [List.length_append, List.length_singleton, ok.head, inc_eq double]
  tail := ok.tail
  slots := by
    intro fits k x kept stored
    simp only [List.length_append, List.length_singleton] at kept
    exact ok.slots fits k x (by omega) stored
  returned := by
    intro fits
    simp only [List.length_append, List.length_singleton, List.take_add_one, oldest fits]
    rw [← ok.returned fits]
    rfl

/-- What producers know of `head` stays a lower bound: there is at least the room they found. -/
theorem SendOk.take {c : Chan ι (Item size)} {i : ι} {saw : Bool} {pc : SendPc (Item size)}
    (ok : SendOk mode g c i saw pc) {h : ℕ} {v : Item size} :
    SendOk mode g { c with head := h, received := c.received ++ [v] } i saw pc := by
  have longer : c.received.length ≤ (c.received ++ [v]).length := by simp
  have reading : ∀ {asserted : Bool} {reads : Reads}, FullReads g.n c saw asserted reads →
      FullReads g.n { c with head := h, received := c.received ++ [v] } saw asserted reads := by
    intro asserted reads known
    cases reads with
    | neither => trivial
    | tail t => exact known
    | head h =>
      obtain ⟨k, old, rest⟩ := known
      exact ⟨k, old.trans longer, rest⟩
  have room : c.Room g.n → Chan.Room g.n { c with head := h, received := c.received ++ [v] } := by
    intro room
    exact Nat.lt_of_lt_of_le room (Nat.add_le_add_right longer g.n)
  cases pc with
  | full test reads x =>
    cases test with
    | unlocked => exact fun one => reading (ok one)
    | locked => exact ⟨ok.1, reading ok.2⟩
    | asserted => exact ⟨ok.1, room ok.2.1, reading ok.2.2⟩
  | copyIndex x => exact ⟨ok.1, room ok.2⟩
  | copy t x => exact ⟨ok.1, room ok.2.1, ok.2.2⟩
  | incIndex x => exact ⟨ok.1, room ok.2.1, ok.2.2⟩
  | publish t x => exact ⟨ok.1, room ok.2.1, ok.2.2⟩
  | _ => exact ok

/-- A step of the consumer that changes nothing else. -/
theorem Inv.receives_locally (inv : Inv mode g s) {pc' : RecvPc (Item size)} {saw' : Bool}
    {results : List (Item size)} (own : RecvOk g s.chan saw' pc') :
    Inv mode g (State.observe g.n ⟨s.chan, s.producers, ⟨pc', saw', results⟩⟩) :=
  Inv.observed inv.chan inv.producers own

/-- One step of the consumer: no assertion fails, and the invariant is kept. -/
theorem channelRecvStep_keeps (inv : Inv mode g s) (double : 2 * (g.n + 1) ≤ 2 ^ 32)
    (act : Act Unit) :
    Ensures (fun _ => ¬ g.Fits size) (channelRecvStep g act s)
    (fun s' => Inv mode g (s'.observe g.n)) := by
  have ok := inv.consumer
  unfold channelRecvStep
  split
  case h_1 here => exact inv.receives_locally ⟨fun wrong => (by cases wrong), trivial⟩
  case h_2 here => exact inv.receives_locally ⟨fun wrong => (by cases wrong), trivial⟩
  case h_3 asserted here =>
    -- what is read of `tail` now is a lower bound from here on
    have calling : s.consumer.pc.calling = true := by rw [here]; rfl
    rw [here] at ok
    refine inv.receives_locally ⟨ok.1, s.chan.sent.length, le_rfl, inv.chan.order, inv.chan.room,
      inv.chan.tail, ?_, ok.1⟩
    intro drained
    apply inv.sawEmpty calling
    rw [Chan.stored]
    omega
  case h_4 asserted here =>
    rw [here] at ok
    exact inv.receives_locally ⟨ok.1, rfl⟩
  case h_5 asserted t here =>
    rw [ensures_bind]
    apply (inv.emptyTest here (.inl ⟨rfl, rfl⟩)).mono
    intro pc own
    exact inv.receives_locally own
  case h_6 asserted h here =>
    rw [ensures_bind]
    apply (inv.emptyTest here (.inr ⟨rfl, rfl⟩)).mono
    intro pc own
    exact inv.receives_locally own
  case h_7 here =>
    rw [here] at ok
    exact inv.receives_locally ⟨ok, rfl⟩
  case h_8 h here =>
    rw [here] at ok
    obtain ⟨more, rfl⟩ := ok
    rw [ensures_bind]
    apply copyOut_spec inv.chan.head_lt
    apply inv.receives_locally
    refine ⟨more, fun fits => ?_⟩
    have stored := List.getElem?_eq_getElem more
    rw [inv.chan.head, inv.chan.slots fits _ _ le_rfl stored, stored]
  case h_9 v here =>
    rw [here] at ok
    exact inv.receives_locally ⟨ok.1, ok.2, rfl⟩
  case h_10 h v here =>
    rw [here] at ok
    obtain ⟨more, oldest, rfl⟩ := ok
    apply Inv.observed
    · exact inv.chan.take double more oldest
    · intro i
      exact (inv.producers i).take
    · exact fun wrong => by cases wrong
  case h_11 => trivial

end Receiving

/-! ## What a step changes -/

section Effects

/-- What is known of a producer outside the lock: of what it has read in the test without
the lock, and when its call has failed. -/
def Outside (Known : Chan ι α → Bool → Reads → Prop) (Failed : Bool → Prop) (c : Chan ι α)
    (saw : Bool) : SendPc α → Prop
  | .full .unlocked reads _ => Known c saw reads
  | .returned ok => ok = false → Failed saw
  | _ => True

variable {mode : Mode} {g : Shape} {s : State ι (Item size)} {i : ι}
  {Known Known' : Chan ι (Item size) → Bool → Reads → Prop} {Failed Failed' : Bool → Prop}

theorem Outside.imp {c c' : Chan ι (Item size)} {saw saw' : Bool} {pc : SendPc (Item size)}
    (known : Outside Known Failed c saw pc)
    (reads : ∀ reads v, pc = .full .unlocked reads v → Known c saw reads → Known' c' saw' reads)
    (failed : Failed saw → Failed' saw') : Outside Known' Failed' c' saw' pc := by
  cases pc with
  | full test read v =>
    cases test with
    | unlocked => exact reads read v rfl known
    | _ => trivial
  | returned ok => exact fun fails => failed (known fails)
  | _ => trivial

/-- The indices and the items are the same; slots and the lock of `tail` may differ. -/
structure Same (c c' : Chan ι (Item size)) : Prop where
  head : c'.head = c.head
  tail : c'.tail = c.tail
  sent : c'.sent = c.sent
  received : c'.received = c.received

/-- A step of producer `i` changes no other thread, and publishes an item if it changes
more than a slot or the lock. -/
structure SendEffect (Known : Chan ι (Item size) → Bool → Reads → Prop) (Failed : Bool → Prop)
    (i : ι) (s s' : State ι (Item size)) : Prop where
  others : ∀ j, j ≠ i → s'.producers j = s.producers j
  consumer : s'.consumer = s.consumer
  chan : Same s.chan s'.chan ∨
    ∃ t v, s'.chan = { s.chan with tail := t, sent := s.chan.sent ++ [v] }
  own : Outside Known Failed s'.chan (s'.producers i).sawFull (s'.producers i).pc

/-- The consumer leaves the channel alone, or publishes `head` and returns the item. -/
theorem channelRecvStep_effect (act : Act Unit) :
    Ensures (fun _ => True) (channelRecvStep g act s) fun s' => s'.producers = s.producers ∧
      (s'.consumer.sawEmpty = s.consumer.sawEmpty ∨ s'.consumer.pc = .empty false .neither) ∧
      s'.consumer.results = s.consumer.results ++ s'.consumer.pc.result ∧
      (s'.chan = s.chan ∧ s'.consumer.pc.result = [] ∨
        ∃ h v, s.consumer.pc = .publish h v ∧ s'.consumer.pc = .returned (some v) ∧
          s'.chan = { s.chan with head := inc g.n h, received := s.chan.received ++ [v] }) := by
  have tested (asserted empty : Bool) : Ensures (fun _ => True) (afterEmptyTest asserted empty)
      fun pc : RecvPc (Item size) => pc.result = [] := by
    cases asserted <;> cases empty <;> trivial
  unfold channelRecvStep
  split
  case h_1 | h_2 => exact ⟨rfl, .inr rfl, (List.append_nil _).symm, .inl ⟨rfl, rfl⟩⟩
  case h_5 | h_6 =>
    rw [ensures_bind]
    apply (tested _ _).mono
    intro pc silent
    exact ⟨rfl, .inl rfl, rfl, .inl ⟨rfl, silent⟩⟩
  case h_8 =>
    rw [ensures_bind]
    apply ensures_answer
    intro v _
    exact ⟨rfl, .inl rfl, rfl, .inl ⟨rfl, rfl⟩⟩
  case h_10 h v here => exact ⟨rfl, .inl rfl, rfl, .inr ⟨h, v, here, rfl, rfl⟩⟩
  case h_11 => trivial
  all_goals exact ⟨rfl, .inl rfl, rfl, .inl ⟨rfl, rfl⟩⟩

variable [DecidableEq ι]

/-- A step that leaves the items alone. -/
theorem sendEffect_goto {pc : SendPc (Item size)} {chan : Chan ι (Item size)}
    (same : Same s.chan chan) (own : Outside Known Failed chan (s.producers i).sawFull pc) :
    SendEffect Known Failed i s { s.goto i pc with chan := chan } where
  others j differ := by simp [State.goto, differ]
  consumer := rfl
  chan := .inl same
  own := by simpa [State.goto] using own

/-- A producer makes a step.  What it knows afterwards has to be shown for the test
without the lock only: where an index is read, where the ring looks full, and of a send
that failed under the lock. -/
theorem channelSendStep_effect {act : Act (Item size)} (neither : Known s.chan false .neither)
    (tail : (s.producers i).pc.calling = true →
      Known s.chan (s.producers i).sawFull (.tail s.chan.tail))
    (head : (s.producers i).pc.calling = true →
      Known s.chan (s.producers i).sawFull (.head s.chan.head))
    (fails : ∀ reads v t h, (s.producers i).pc = .full .unlocked reads v → (∀ v, act ≠ .start v) →
      (reads = .tail t ∧ h = s.chan.head ∨ reads = .head h ∧ t = s.chan.tail) →
      isFull g.n t h = true → Failed (s.producers i).sawFull)
    (unlocks : (s.producers i).pc = .unlock false → Failed (s.producers i).sawFull) :
    Ensures (fun _ => True) (channelSendStep mode g i act s) (SendEffect Known Failed i s) := by
  have stays : Same s.chan s.chan := ⟨rfl, rfl, rfl, rfl⟩
  have tested {test : Test} {v : Item size} {full : Bool}
      (failed : test = .unlocked → full = true → Failed (s.producers i).sawFull) :
      Ensures (fun _ => True) (afterTest mode test v full) fun pc =>
        SendEffect Known Failed i s (s.goto i pc) := by
    cases test <;> cases full
    case unlocked.true => exact sendEffect_goto stays fun _ => failed rfl rfl
    case unlocked.false => cases mode <;> exact sendEffect_goto stays trivial
    case asserted.true => trivial
    all_goals exact sendEffect_goto stays trivial
  unfold channelSendStep
  split
  case h_1 | h_2 =>
    exact ⟨fun j differ => by simp [differ], rfl, .inl stays, by simpa [Outside] using neither⟩
  case h_3 test v here =>
    refine sendEffect_goto stays ?_
    cases test with
    | unlocked => exact tail (by rw [here]; rfl)
    | _ => trivial
  case h_4 test v here =>
    refine sendEffect_goto stays ?_
    cases test with
    | unlocked => exact head (by rw [here]; rfl)
    | _ => trivial
  case h_5 test t v here =>
    rw [ensures_bind]
    refine tested ?_
    rintro rfl looks
    exact fails _ v t _ here (by simp) (.inl ⟨rfl, rfl⟩) looks
  case h_6 test h v here =>
    rw [ensures_bind]
    refine tested ?_
    rintro rfl looks
    exact fails _ v _ h here (by simp) (.inr ⟨rfl, rfl⟩) looks
  case h_7 =>
    split
    · exact sendEffect_goto ⟨rfl, rfl, rfl, rfl⟩ trivial
    · trivial
  case h_9 =>
    rw [ensures_bind]
    apply copyIn_frame
    intro buffer
    exact sendEffect_goto ⟨rfl, rfl, rfl, rfl⟩ trivial
  case h_11 t v here =>
    refine ⟨fun j differ => by simp [State.goto, differ], rfl, .inr ⟨_, v, rfl⟩, ?_⟩
    cases mode <;> simp [State.goto, Outside]
  case h_12 ok here =>
    refine sendEffect_goto ⟨rfl, rfl, rfl, rfl⟩ ?_
    rintro rfl
    exact unlocks here
  case h_13 => trivial
  all_goals exact sendEffect_goto stays trivial

end Effects

/-! ## Every interleaving -/

section Runs

variable {mode : Mode} {g : Shape} {s : State ι (Item size)} {memory : ℕ → UInt8}

theorem inv_initial : Inv mode g (initial memory : State ι (Item size)) where
  chan := ⟨le_rfl, Nat.zero_le _, rfl, rfl, by simp [initial], fun _ => rfl⟩
  producers _ := trivial
  consumer := trivial
  sawFull _ calling := by cases calling
  sawEmpty calling := by cases calling

variable [DecidableEq ι]

theorem move_keeps (inv : Inv mode g s) (double : 2 * (g.n + 1) ≤ 2 ^ 32)
    (single : mode = .spsc → Subsingleton ι) (party : Party ι (Item size)) :
    Ensures (fun _ => ¬ g.Fits size) (move mode g party s) (Inv mode g) := by
  cases party with
  | producer i act => exact ensures_bind.mpr (channelSendStep_keeps inv double single i act)
  | consumer act => exact ensures_bind.mpr (channelRecvStep_keeps inv double act)

theorem reachable_inv (double : 2 * (g.n + 1) ≤ 2 ^ 32) (single : mode = .spsc → Subsingleton ι)
    (reached : (system mode g memory).Reachable s) : Inv mode g s := by
  refine reached.invariant ?_ ?_
  · rintro s rfl
    exact inv_initial
  · rintro s s' - inv ⟨party, moved⟩
    exact (move_keeps inv double single party).value moved

end Runs

/-- Between the test and the publication of `head`. -/
def RecvPc.taking : RecvPc α → Bool
  | .copyIndex | .copy _ | .incIndex _ | .publish _ _ => true
  | .idle | .empty _ _ | .returned _ => false

/-- The slot that is written is not the one being read. -/
theorem Inv.slots_apart {mode : Mode} {g : Shape} {s : State ι (Item size)} (inv : Inv mode g s)
    {i : ι} {t : ℕ} {v : Item size} (writing : (s.producers i).pc = .copy t v)
    (reading : s.consumer.pc.taking = true) :
    t ≠ s.chan.head := by
  have producer := inv.producers i
  rw [writing] at producer
  obtain ⟨-, room, rfl⟩ := producer
  have more : s.chan.received.length < s.chan.sent.length := by
    have consumer := inv.consumer
    cases pc : s.consumer.pc with
    | copyIndex =>
      rw [pc] at consumer
      exact consumer
    | copy h =>
      rw [pc] at consumer
      exact consumer.1
    | incIndex x =>
      rw [pc] at consumer
      exact consumer.1
    | publish h x =>
      rw [pc] at consumer
      exact consumer.1
    | _ => simp [pc, RecvPc.taking] at reading
  rw [Chan.Room] at room
  rw [inv.chan.tail, inv.chan.head]
  exact (Ring.slot_ne more (by omega)).symm

/-! ### What the calls return -/

section Results

variable {mode : Mode} {g : Shape} {s s' : State ι (Item size)} {memory : ℕ → UInt8}

/-- The items that were taken are those the calls have returned. -/
def State.Answers (s : State ι (Item size)) : Prop := s.consumer.results = s.chan.received

theorem State.Answers.observed (answers : s.Answers) {n : ℕ} : (s.observe n).Answers := by
  change (s.consumer.observe _).results = s.chan.received
  rw [Consumer.observe_results]
  exact answers

theorem channelRecvStep_answers (answers : s.Answers) (act : Act Unit) :
    Ensures (fun _ => True) (channelRecvStep g act s) State.Answers := by
  apply (channelRecvStep_effect act).mono
  rintro s' ⟨-, -, results, ⟨same, silent⟩ | ⟨h, v, -, returned, taken⟩⟩
  · rw [State.Answers, results, silent, same, List.append_nil]
    exact answers
  · rw [State.Answers, results, returned, taken]
    exact congrArg (· ++ [v]) answers

variable [DecidableEq ι]

theorem channelSendStep_answers (answers : s.Answers) (i : ι) (act : Act (Item size)) :
    Ensures (fun _ => True) (channelSendStep mode g i act s) State.Answers := by
  have effect := @channelSendStep_effect ι size mode g s i (fun _ _ _ => True) (fun _ => True) _ act
    trivial (fun _ => trivial) (fun _ => trivial) (fun _ _ _ _ _ _ _ _ => trivial)
    fun _ => trivial
  apply effect.mono
  rintro s' ⟨-, consumer, chan, -⟩
  rw [State.Answers, consumer]
  rcases chan with same | ⟨t, v, published⟩
  · exact answers.trans same.received.symm
  · rw [published]
    exact answers

theorem reachable_answers (reached : (system mode g memory).Reachable s) : s.Answers := by
  refine reached.invariant ?_ ?_
  · rintro s rfl
    rfl
  · rintro s s' - answers ⟨party, moved⟩
    have kept : Ensures (fun _ => True) (move mode g party s) State.Answers := by
      cases party with
      | producer i act =>
        rw [move, ensures_bind]
        apply (channelSendStep_answers answers i act).mono
        intro s' kept
        exact kept.observed
      | consumer act =>
        rw [move, ensures_bind]
        apply (channelRecvStep_answers answers act).mono
        intro s' kept
        exact kept.observed
    exact kept.value moved

end Results

/-- For every interleaving: items are received in the order in which they were
published, none is lost or received twice, and the calls return what was taken; at most
`n` are stored, and no slot is written while it is read.  A send of a single producer
that fails saw the ring full, and a receive that fails saw it empty.  No assertion fails
and no copy leaves the buffer. -/
theorem ring_loses_nothing [DecidableEq ι] (mode : Mode) (g : Shape)
    (double : 2 * (g.n + 1) ≤ 2 ^ 32) (fits : g.Fits size)
    (single : mode = .spsc → Subsingleton ι) (memory : ℕ → UInt8) {s : State ι (Item size)}
    (reached : (system mode g memory).Reachable s) :
    s.consumer.results = s.chan.received ∧ s.chan.received <+: s.chan.sent ∧
    s.chan.stored ≤ g.n ∧
    (∀ i t v, (s.producers i).pc = .copy t v → s.consumer.pc.taking = true → t ≠ s.chan.head) ∧
    (∀ h, s.consumer.pc = .copy h → h = s.chan.head) ∧
    (mode = .spsc → ∀ i, (s.producers i).pc = .returned false → (s.producers i).sawFull = true) ∧
    (s.consumer.pc = .returned none → s.consumer.sawEmpty = true) ∧
    ∀ party fault, move mode g party s ≠ .error (.fault fault) := by
  have inv := reachable_inv double single reached
  refine ⟨reachable_answers reached, ?_, ?_, ?_, ?_, ?_, ?_, ?_⟩
  · rw [inv.chan.returned fits]
    exact List.take_prefix _ _
  · have room := inv.chan.room
    rw [Chan.stored]
    omega
  · intro i t v writing reading
    exact inv.slots_apart writing reading
  · intro h reading
    have consumer := inv.consumer
    rw [reading] at consumer
    exact consumer.2
  · intro one i failed
    have producer := inv.producers i
    rw [failed] at producer
    exact producer one rfl
  · intro failed
    have consumer := inv.consumer
    rw [failed] at consumer
    exact consumer rfl
  · intro party fault failed
    exact (move_keeps inv double single party).tolerates failed fits

def byte (b : UInt8) : Item 1 := ⟨[b], rfl⟩

/-- A whole call without interruption, by the single producer and by the consumer. -/
def sendCall (v : α) : List (Party Unit α) :=
  [.start v, .readTail, .readHead, .readTail, .readHead, .go, .go, .go, .go].map (.producer ())

def recvCall : List (Party ι α) :=
  [.start (), .readHead, .readTail, .readHead, .readTail, .go, .go, .go, .go].map .consumer

/-- A ring with one place: the second send fails while the first item is received. -/
def fullSchedule : List (Party Unit (Item 1)) :=
  sendCall (byte 5) ++ [.producer () (.start (byte 6)), .producer () .readHead] ++ recvCall ++
    [.producer () .readTail]

theorem ring_loses_nothing_when_full :
    ((System.follow (move .spsc ⟨1, 1⟩) fullSchedule (initial fun _ => 0)).producers ()).pc =
        .returned false ∧
      ((System.follow (move .spsc ⟨1, 1⟩) fullSchedule (initial fun _ => 0)).producers ()).sawFull =
        true ∧
      (System.follow (move .spsc ⟨1, 1⟩) fullSchedule (initial fun _ => 0)).consumer.results =
        [byte 5] :=
  ⟨by decide, (ring_loses_nothing .spsc ⟨1, 1⟩ (by decide) ⟨by decide, by decide⟩
    (fun _ => inferInstance) _ (System.follow_reachable fullSchedule)).2.2.2.2.2.1 rfl ()
    (by decide), by decide⟩

/-! ### The largest rings

With `2 ^ 32 - 1` slots the sum in `NUM_ITEMS` overflows, and a full ring is not seen
to be full.  With fewer slots the size of the buffer can overflow instead. -/

/-- With `65536` slots of `65536` bytes the buffer is allocated empty: the first copy
leaves it. -/
theorem wide_ring_faults :
    ∃ s : State Unit (Item 1), (system .spsc ⟨65535, 65536⟩ fun _ => 0).Reachable s ∧
      move .spsc ⟨65535, 65536⟩ (.producer () .go) s = .error (.fault .bounds) :=
  ⟨_, System.follow_reachable ((sendCall (byte 5)).take 6), error_of_failed (by decide)⟩

section Overflow

/-- The largest ring of bytes. -/
def largest : Shape := ⟨4294967294, 1⟩

variable {s : State Unit (Item 1)} {k : ℕ}

/-- The producer stands at `pc`, and `k` items were sent without any being received. -/
structure Unread (pc : SendPc (Item 1)) (k : ℕ) (s : State Unit (Item 1)) : Prop where
  pc : (s.producers ()).pc = pc
  head : s.chan.head = 0
  tail : s.chan.tail = k % 4294967295
  sent : s.chan.sent.length = k
  received : s.chan.received = []

theorem looks_unfilled : isFull largest.n (k % 4294967295) 0 = false := by
  change isFull 4294967294 (k % 4294967295) 0 = false
  rw [isFull, numItems, beq_eq_false_iff_ne]
  omega

theorem copyIn_largest {c : Chan Unit (Item 1)} {v : Item 1} :
    c.copyIn largest (k % 4294967295) v = .ok (c.put largest (k % 4294967295) v) := by
  have inside : largest.offset (k % 4294967295) + 1 ≤ largest.bufsize := by
    change k % 4294967295 * 1 % 2 ^ 32 + 1 ≤ (4294967294 + 1) * 1 % 2 ^ 32
    omega
  rw [Chan.copyIn, check, if_pos (by decide), ok_bind, check, if_pos inside]
  rfl

theorem Unread.of_step {pc : SendPc (Item 1)} {act : Act (Item 1)} {s' : State Unit (Item 1)}
    (reached : (system .spsc largest fun _ => 0).Reachable s)
    (moved : channelSendStep .spsc largest () act s = .ok s') (now : Unread pc k s') :
    ∃ s', (system .spsc largest fun _ => 0).Reachable s' ∧ Unread pc k s' := by
  refine ⟨s'.observe largest.n, reached.tail ⟨.producer () act, ?_⟩, ?_⟩
  · simp only [move, moved, ok_bind]
    rfl
  · exact ⟨by simpa [State.observe] using now.pc, now.head, now.tail, now.sent, now.received⟩

theorem Unread.goes {pc pc' : SendPc (Item 1)} {act : Act (Item 1)} (u : Unread pc k s)
    (reached : (system .spsc largest fun _ => 0).Reachable s)
    (moved : channelSendStep .spsc largest () act s = .ok (s.goto () pc')) :
    ∃ s', (system .spsc largest fun _ => 0).Reachable s' ∧ Unread pc' k s' :=
  Unread.of_step reached moved ⟨by simp [State.goto], u.head, u.tail, u.sent, u.received⟩

/-- Another item can always be sent. -/
theorem Unread.sends {pc : SendPc (Item 1)} (u : Unread pc k s) (resting : pc.calling = false)
    (reached : (system .spsc largest fun _ => 0).Reachable s) :
    ∃ s', (system .spsc largest fun _ => 0).Reachable s' ∧
      Unread (.returned true) (k + 1) s' := by
  obtain ⟨s, reached, u⟩ : ∃ s', (system .spsc largest fun _ => 0).Reachable s' ∧
      Unread (.full .unlocked .neither (byte 0)) k s' := by
    let called : State Unit (Item 1) :=
      ⟨s.chan, update s.producers () ⟨.full .unlocked .neither (byte 0), false⟩,
        s.consumer⟩
    refine @Unread.of_step s k _ (.start (byte 0)) called reached ?_
      ⟨by simp [called], u.head, u.tail, u.sent, u.received⟩
    cases pc with
    | idle => simp only [channelSendStep, u.pc]; rfl
    | returned ok => simp only [channelSendStep, u.pc]; rfl
    | _ => cases resting
  -- the test, and the assertion
  obtain ⟨s, reached, u⟩ := @Unread.goes s k _ (.full .unlocked (.tail (k % 4294967295)) (byte 0))
    .readTail u reached (by simp only [channelSendStep, u.pc, u.tail]; rfl)
  obtain ⟨s, reached, u⟩ := @Unread.goes s k _ (.full .asserted .neither (byte 0)) .readHead u
    reached (by simp only [channelSendStep, u.pc, u.head, looks_unfilled]; rfl)
  obtain ⟨s, reached, u⟩ := @Unread.goes s k _ (.full .asserted (.tail (k % 4294967295)) (byte 0))
    .readTail u reached (by simp only [channelSendStep, u.pc, u.tail]; rfl)
  obtain ⟨s, reached, u⟩ := @Unread.goes s k _ (.copyIndex (byte 0)) .readHead u reached
    (by simp only [channelSendStep, u.pc, u.head, looks_unfilled]; rfl)
  obtain ⟨s, reached, u⟩ := @Unread.goes s k _ (.copy (k % 4294967295) (byte 0)) .go u reached
    (by simp only [channelSendStep, u.pc, u.tail]; rfl)
  obtain ⟨s, reached, u⟩ : ∃ s', (system .spsc largest fun _ => 0).Reachable s' ∧
      Unread (.incIndex (byte 0)) k s' := by
    refine @Unread.of_step s k _ .go _ reached
      (by simp only [channelSendStep, u.pc, copyIn_largest, ok_bind]; rfl) ?_
    exact ⟨by simp [State.goto], u.head, u.tail, u.sent, u.received⟩
  obtain ⟨s, reached, u⟩ := @Unread.goes s k _ (.publish (k % 4294967295) (byte 0)) .go u reached
    (by simp only [channelSendStep, u.pc, u.tail]; rfl)
  refine @Unread.of_step s _ _ .go _ reached (by simp only [channelSendStep, u.pc]; rfl) ?_
  refine ⟨by simp [State.goto], u.head, ?_, by simp [u.sent], u.received⟩
  change inc 4294967294 (k % 4294967295) = (k + 1) % 4294967295
  rw [inc]
  omega

/-- In the largest ring more items are stored than it has places for: `size + tail` wraps
around, so that `NUM_ITEMS` counts one item too few. -/
theorem large_ring_overflows :
    ∃ s : State Unit (Item 1), (system .spsc largest fun _ => 0).Reachable s ∧
      s.chan.stored = largest.n + 1 := by
  have all : ∀ k, ∃ s pc, (system .spsc largest fun _ => 0).Reachable s ∧ Unread pc k s ∧
      pc.calling = false := by
    intro k
    induction k with
    | zero => exact ⟨_, .idle, System.reachable_of_init rfl, ⟨rfl, rfl, rfl, rfl, rfl⟩, rfl⟩
    | succ k ih =>
      obtain ⟨s, pc, reached, u, resting⟩ := ih
      obtain ⟨s', reached', u'⟩ := u.sends resting reached
      exact ⟨s', _, reached', u', rfl⟩
  obtain ⟨s, pc, reached, u, -⟩ := all 4294967295
  refine ⟨s, reached, ?_⟩
  rw [Chan.stored, u.sent, u.received]
  rfl

end Overflow

end Tasking.RingProtocol
