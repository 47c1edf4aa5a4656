import Tasking.Fallible
import Tasking.Ring

/-!
The bounded queue of `bounded_queue.h`, in which a worker keeps the steal requests
of its idle children.  It is a ring with one slot more than its capacity, and
`bounded_queue_head` and `bounded_queue_dequeue` return pointers into the ring.

What the ring contains is described by its whole past: the last `c + 1` values ever
enqueued are where they were written, those dequeued since included.  So a pointer
can be followed as long as fewer than `c + 1` values have been enqueued after its
own (`Holds.deref`).

`bounded_queue_refines_fifo_iff`: the queue is a FIFO list of at most `c` elements,
with pointers that last, exactly if the size of its buffer fits in the
`unsigned int` in which `bounded_queue_alloc` computes it.
-/
namespace Tasking.BoundedQueues
open Fallible

variable {α : Type}

/-- The assertions of `bounded_queue.h`, and an access outside the buffer. -/
inductive QueueFault where
  | full | empty | overrun
  deriving DecidableEq, Repr

abbrev Checked (β : Type) := Fallible.Checked QueueFault β

/-- `BoundedQueue`; `buffer` has the elements for which there is memory. -/
structure BoundedQueue (α : Type) where
  capacity : UInt32
  head : UInt32
  tail : UInt32
  buffer : List α
  deriving DecidableEq, Repr

/-- `bounded_queue_alloc` for elements of `size` bytes; `memory` is what `malloc`
finds in the new buffer. -/
def boundedQueueAlloc (size : ℕ) (capacity : UInt32) (memory : ℕ → α) : BoundedQueue α :=
  -- the product is a `size_t` and is stored in an `unsigned int`
  let bufferSize := UInt32.ofNat ((capacity + 1).toNat * size)
  { capacity := capacity + 1
    head := 0
    tail := 0
    buffer := (List.range (bufferSize.toNat / size)).map memory }

def boundedQueueEmpty (queue : BoundedQueue α) : Bool := queue.head == queue.tail

def boundedQueueFull (queue : BoundedQueue α) : Bool :=
  (queue.tail + 1) % queue.capacity == queue.head

def boundedQueueEnqueue (queue : BoundedQueue α) (elem : α) : Checked (BoundedQueue α) := do
  check (!boundedQueueFull queue) .full
  check (queue.tail.toNat < queue.buffer.length) .overrun
  return { queue with
    buffer := queue.buffer.set queue.tail.toNat elem
    tail := (queue.tail + 1) % queue.capacity }

/-- A pointer into the buffer is the index of the element. -/
def boundedQueueDequeue (queue : BoundedQueue α) : Checked (ℕ × BoundedQueue α) := do
  check (!boundedQueueEmpty queue) .empty
  return (queue.head.toNat, { queue with head := (queue.head + 1) % queue.capacity })

def boundedQueueHead (queue : BoundedQueue α) : Checked ℕ := do
  check (!boundedQueueEmpty queue) .empty
  return queue.head.toNat

/-- `*elem`, for a pointer into the buffer. -/
def BoundedQueue.deref (queue : BoundedQueue α) (elem : ℕ) : Checked α :=
  match queue.buffer[elem]? with
  | some value => .ok value
  | none => .error (.fault .overrun)

/-! ## Sequences of calls -/

inductive Call (α : Type) where
  | enqueue (elem : α)
  | dequeue
  | head
  deriving DecidableEq, Repr

/-- One call; the answer is what the returned pointer points to. -/
def boundedQueueCall (queue : BoundedQueue α) : Call α → Checked (Option α × BoundedQueue α)
  | .enqueue elem => do
    let queue ← boundedQueueEnqueue queue elem
    return (none, queue)
  | .dequeue => do
    let (elem, queue) ← boundedQueueDequeue queue
    let value ← queue.deref elem
    return (some value, queue)
  | .head => do
    let elem ← boundedQueueHead queue
    let value ← queue.deref elem
    return (some value, queue)

def boundedQueueCalls (queue : BoundedQueue α) :
    List (Call α) → Checked (List (Option α) × BoundedQueue α)
  | [] => return ([], queue)
  | call :: calls => do
    let (answer, queue) ← boundedQueueCall queue call
    let (answers, queue) ← boundedQueueCalls queue calls
    return (answer :: answers, queue)

/-- The same calls on a list of at most `c` elements, oldest first. -/
def fifoCall (c : ℕ) (items : List α) : Call α → Checked (Option α × List α)
  | .enqueue elem => do
    check (items.length ≠ c) .full
    return (none, items ++ [elem])
  | .dequeue =>
    match items with
    | [] => .error (.fault .empty)
    | oldest :: rest => return (some oldest, rest)
  | .head =>
    match items with
    | [] => .error (.fault .empty)
    | oldest :: rest => return (some oldest, oldest :: rest)

def fifoCalls (c : ℕ) (items : List α) : List (Call α) → Checked (List (Option α) × List α)
  | [] => return ([], items)
  | call :: calls => do
    let (answer, items) ← fifoCall c items call
    let (answers, items) ← fifoCalls c items calls
    return (answer :: answers, items)

def Call.enqueued : Call α → List α
  | .enqueue elem => [elem]
  | _ => []

def Call.dequeues : Call α → ℕ
  | .dequeue => 1
  | _ => 0

def enqueued (calls : List (Call α)) : List α := calls.flatMap Call.enqueued

def dequeues (calls : List (Call α)) : ℕ := (calls.map Call.dequeues).sum

/-! ## What a queue holds -/

/-- The queue holds `items`; the values dequeued before are `gone`.  Of all these
the last `c + 1` are still in the ring. -/
structure Holds (queue : BoundedQueue α) (c : ℕ) (gone items : List α) : Prop where
  capacity : queue.capacity.toNat = c + 1
  head : queue.head.toNat = gone.length % (c + 1)
  tail : queue.tail.toNat = (gone ++ items).length % (c + 1)
  room : items.length ≤ c
  kept : ∀ k value, (gone ++ items)[k]? = some value → (gone ++ items).length ≤ k + (c + 1) →
    queue.buffer[k % (c + 1)]? = some value

section Operations

variable {queue : BoundedQueue α} {c : ℕ} {gone items : List α}

theorem Holds.empty (holds : Holds queue c gone items) :
    boundedQueueEmpty queue = decide (items = []) := by
  have room := holds.room
  rw [Bool.eq_iff_iff, boundedQueueEmpty, beq_iff_eq, decide_eq_true_iff, ← UInt32.toNat_inj,
    holds.head, holds.tail, List.length_append]
  constructor
  · intro same
    have none := Ring.slot_injective (Nat.le_add_right gone.length items.length) (by omega) same
    exact List.length_eq_zero_iff.mp (by omega)
  · rintro rfl
    simp

theorem Holds.next (holds : Holds queue c gone items) :
    ((queue.tail + 1) % queue.capacity).toNat = ((gone ++ items).length + 1) % (c + 1) :=
  Ring.toNat_next holds.capacity holds.tail (Nat.succ_pos c)

theorem Holds.full (holds : Holds queue c gone items) :
    boundedQueueFull queue = decide (items.length = c) := by
  have room := holds.room
  rw [Bool.eq_iff_iff, boundedQueueFull, beq_iff_eq, decide_eq_true_iff, ← UInt32.toNat_inj,
    holds.next, holds.head, List.length_append]
  constructor
  · intro same
    -- a round of the ring apart, so that the two indices are equal
    by_contra fewer
    have none := @Ring.slot_injective (c + 1) gone.length (gone.length + items.length + 1)
      (by omega) (by omega) same.symm
    omega
  · rintro rfl
    rw [Nat.add_assoc, Nat.add_mod_right]

/-- A pointer to the `k`-th value ever enqueued, until the ring has come round. -/
theorem Holds.deref (holds : Holds queue c gone items) {k : ℕ} {value : α}
    (there : (gone ++ items)[k]? = some value) (lasts : (gone ++ items).length ≤ k + (c + 1)) :
    queue.deref (k % (c + 1)) = .ok value := by
  rw [BoundedQueue.deref, holds.kept k value there lasts]

/-- The queue after a value has been written at `tail`. -/
theorem Holds.write (holds : Holds queue c gone items) (more : items.length ≠ c) (elem : α)
    (inside : queue.tail.toNat < queue.buffer.length) :
    Holds { queue with
      buffer := queue.buffer.set queue.tail.toNat elem
      tail := (queue.tail + 1) % queue.capacity } c gone (items ++ [elem]) := by
  have room := holds.room
  refine ⟨holds.capacity, holds.head, ?_, ?_, ?_⟩
  · rw [← List.append_assoc, List.length_append]
    exact holds.next
  · rw [List.length_append, List.length_singleton]
    omega
  · intro k value there lasts
    rw [← List.append_assoc] at there lasts
    rw [List.length_append, List.length_singleton] at lasts
    by_cases new : k = (gone ++ items).length
    · subst new
      obtain rfl : elem = value := by simpa using there
      rw [← holds.tail, List.getElem?_set_self inside]
    · -- the slot written is another one, since the value is among the last `c`
      have old : k < (gone ++ items).length := by
        obtain ⟨bound, -⟩ := List.getElem?_eq_some_iff.mp there
        rw [List.length_append, List.length_singleton] at bound
        omega
      rw [List.getElem?_append_left old] at there
      have apart : k % (c + 1) ≠ (gone ++ items).length % (c + 1) := Ring.slot_ne old (by omega)
      rw [holds.tail, List.getElem?_set_ne apart.symm]
      exact holds.kept k value there (by omega)

/-- The queue after the oldest value has been left behind. -/
theorem Holds.leave {oldest : α} (holds : Holds queue c gone (oldest :: items)) :
    Holds { queue with head := (queue.head + 1) % queue.capacity } c (gone ++ [oldest]) items := by
  have same : gone ++ [oldest] ++ items = gone ++ oldest :: items := by simp
  have room := holds.room
  rw [List.length_cons] at room
  refine ⟨holds.capacity, ?_, ?_, by omega, ?_⟩
  · rw [List.length_append]
    exact Ring.toNat_next holds.capacity holds.head (Nat.succ_pos c)
  · rw [same]
    exact holds.tail
  · rw [same]
    exact holds.kept

theorem Holds.head_eq {oldest : α} (holds : Holds queue c gone (oldest :: items)) :
    boundedQueueHead queue = .ok (gone.length % (c + 1)) := by
  rw [boundedQueueHead, holds.empty, holds.head]
  rfl

theorem Holds.dequeue_eq {oldest : α} (holds : Holds queue c gone (oldest :: items)) :
    boundedQueueDequeue queue = .ok (gone.length % (c + 1),
      { queue with head := (queue.head + 1) % queue.capacity }) := by
  rw [boundedQueueDequeue, holds.empty, holds.head]
  rfl

theorem Holds.oldest {oldest : α} (holds : Holds queue c gone (oldest :: items)) :
    queue.deref (gone.length % (c + 1)) = .ok oldest := by
  have room := holds.room
  apply holds.deref
  · simp
  · rw [List.length_append]
    omega

end Operations

/-! ## Calls on the queue and on the list -/

/-- The only fault that is not one of the list: the ring needs more elements than
the buffer has. -/
def Overruns (queue : BoundedQueue α) (c : ℕ) (which : QueueFault) : Prop :=
  which = .overrun ∧ queue.buffer.length ≤ c

/-- What has become of the queue and of the list after the calls. -/
def After (queue : BoundedQueue α) (c : ℕ) (gone items : List α) (calls : List (Call α))
    (queue' : BoundedQueue α) (items' : List α) : Prop :=
  ∃ gone', Holds queue' c gone' items' ∧ gone' ++ items' = gone ++ items ++ enqueued calls ∧
    gone'.length = gone.length + dequeues calls ∧ queue'.buffer.length = queue.buffer.length

section Calls

variable {queue : BoundedQueue α} {c : ℕ} {gone items : List α}

theorem Holds.enqueue_agrees (holds : Holds queue c gone items) (elem : α) :
    Agree (Overruns queue c)
      (fun answer answer' => answer.1 = answer'.1 ∧
        After queue c gone items [.enqueue elem] answer.2 answer'.2)
      (boundedQueueCall queue (.enqueue elem)) (fifoCall c items (.enqueue elem)) := by
  simp only [boundedQueueCall, boundedQueueEnqueue, holds.full, fifoCall, bind_assoc, pure_bind]
  refine (agree_check (by simp)).bind fun _ _ (room : (!decide (items.length = c)) = true) => ?_
  have more : items.length ≠ c := by simpa using room
  refine agree_guard (fun inside => ?_) (fun outside => ?_)
  · exact ⟨rfl, gone, holds.write more elem inside, by simp [enqueued, Call.enqueued],
      by simp [dequeues, Call.dequeues], List.length_set ..⟩
  · have small : queue.tail.toNat < c + 1 := holds.tail ▸ Nat.mod_lt _ (Nat.succ_pos c)
    exact ⟨rfl, by omega⟩

theorem Holds.dequeue_agrees (holds : Holds queue c gone items) :
    Agree (Overruns queue c)
      (fun answer answer' => answer.1 = answer'.1 ∧
        After queue c gone items [.dequeue] answer.2 answer'.2)
      (boundedQueueCall queue .dequeue) (fifoCall c items .dequeue) := by
  cases items with
  | nil =>
    simp only [boundedQueueCall, boundedQueueDequeue, holds.empty, check]
    exact agree_same
  | cons oldest rest =>
    have points : (BoundedQueue.deref { queue with head := (queue.head + 1) % queue.capacity }
        (gone.length % (c + 1))) = .ok oldest := holds.oldest
    simp only [boundedQueueCall, holds.dequeue_eq, ok_bind, points]
    exact ⟨rfl, gone ++ [oldest], holds.leave, by simp [enqueued, Call.enqueued],
      by simp [dequeues, Call.dequeues], rfl⟩

theorem Holds.head_agrees (holds : Holds queue c gone items) :
    Agree (Overruns queue c)
      (fun answer answer' => answer.1 = answer'.1 ∧
        After queue c gone items [.head] answer.2 answer'.2)
      (boundedQueueCall queue .head) (fifoCall c items .head) := by
  cases items with
  | nil =>
    simp only [boundedQueueCall, boundedQueueHead, holds.empty, check]
    exact agree_same
  | cons oldest rest =>
    simp only [boundedQueueCall, holds.head_eq, ok_bind, holds.oldest]
    exact ⟨rfl, gone, holds, by simp [enqueued, Call.enqueued], by simp [dequeues, Call.dequeues],
      rfl⟩

theorem Holds.call (holds : Holds queue c gone items) (call : Call α) :
    Agree (Overruns queue c)
      (fun answer answer' => answer.1 = answer'.1 ∧
        After queue c gone items [call] answer.2 answer'.2)
      (boundedQueueCall queue call) (fifoCall c items call) := by
  cases call with
  | enqueue elem => exact holds.enqueue_agrees elem
  | dequeue => exact holds.dequeue_agrees
  | head => exact holds.head_agrees

theorem After.trans {queue₁ queue₂ : BoundedQueue α} {gone₁ items₁ items₂ : List α}
    {call : Call α} {calls : List (Call α)}
    (extended : gone₁ ++ items₁ = gone ++ items ++ enqueued [call])
    (left : gone₁.length = gone.length + dequeues [call])
    (length : queue₁.buffer.length = queue.buffer.length)
    (after : After queue₁ c gone₁ items₁ calls queue₂ items₂) :
    After queue c gone items (call :: calls) queue₂ items₂ := by
  obtain ⟨gone₂, holds, extended₂, left₂, length₂⟩ := after
  refine ⟨gone₂, holds, ?_, ?_, length₂.trans length⟩
  · rw [extended₂, extended]
    simp [enqueued]
  · rw [left₂, left]
    simp [dequeues, Nat.add_assoc]

theorem Holds.calls (calls : List (Call α)) :
    ∀ {queue : BoundedQueue α} {gone items : List α}, Holds queue c gone items →
      Agree (Overruns queue c)
        (fun answer answer' => answer.1 = answer'.1 ∧
          After queue c gone items calls answer.2 answer'.2)
        (boundedQueueCalls queue calls) (fifoCalls c items calls) := by
  induction calls with
  | nil =>
    intro queue gone items holds
    exact ⟨rfl, gone, holds, by simp [enqueued], by simp [dequeues], rfl⟩
  | cons call calls ih =>
    intro queue gone items holds
    refine (holds.call call).bind ?_
    rintro ⟨answer, queue₁⟩ ⟨answer', items₁⟩ ⟨rfl, gone₁, holds₁, extended, left, length⟩
    have later := (ih holds₁).weaken (fun which (overruns : Overruns queue₁ c which) =>
      show Overruns queue c which from ⟨overruns.1, length ▸ overruns.2⟩)
    refine later.bind ?_
    rintro ⟨answers, queue₂⟩ ⟨answers', items₂⟩ ⟨rfl, after⟩
    exact ⟨rfl, after.trans extended left length⟩

/-- A pointer to the oldest element, as long as nothing is dequeued. -/
theorem Holds.oldest_lasts {oldest : α} (holds : Holds queue c gone (oldest :: items))
    (more : List (Call α)) (stays : dequeues more = 0) :
    Ensures (fun _ => True) (boundedQueueCalls queue more) fun later =>
      later.2.deref (gone.length % (c + 1)) = .ok oldest := by
  refine (ensures_answer fun later ran => ?_)
  obtain ⟨⟨answers, items'⟩, -, -, gone', holds', extended, left, -⟩ :=
    (Holds.calls more holds).value ran
  have room : items'.length ≤ c := holds'.room
  have here : (gone' ++ items')[gone.length]? = some oldest := by
    simp [extended]
  apply holds'.deref here
  simp only [List.length_append]
  omega

/-- A pointer to a dequeued element, until the ring comes round to its slot. -/
theorem Holds.dequeued_lasts {oldest : α} (holds : Holds queue c (gone ++ [oldest]) items)
    (more : List (Call α)) (few : items.length + (enqueued more).length ≤ c) :
    Ensures (fun _ => True) (boundedQueueCalls queue more) fun later =>
      later.2.deref (gone.length % (c + 1)) = .ok oldest := by
  refine (ensures_answer fun later ran => ?_)
  obtain ⟨⟨answers, items'⟩, -, -, gone', holds', extended, -, -⟩ :=
    (Holds.calls more holds).value ran
  have here : (gone' ++ items')[gone.length]? = some oldest := by
    simp [extended]
  apply holds'.deref here
  rw [extended]
  simp only [List.length_append, List.length_singleton]
  omega

end Calls

/-! ## Allocation -/

section Allocation

variable {size : ℕ} {c : UInt32} {memory : ℕ → α}

theorem boundedQueueAlloc_holds (counted : c.toNat + 1 < 2 ^ 32) :
    Holds (boundedQueueAlloc size c memory) c.toNat [] [] where
  capacity := by
    rw [boundedQueueAlloc, UInt32.toNat_add, UInt32.toNat_one]
    exact Nat.mod_eq_of_lt counted
  head := by simp [boundedQueueAlloc]
  tail := by simp [boundedQueueAlloc]
  room := Nat.zero_le _
  kept k value there := by cases there

theorem boundedQueueAlloc_length (counted : c.toNat + 1 < 2 ^ 32) :
    (boundedQueueAlloc size c memory).buffer.length = (c.toNat + 1) * size % 2 ^ 32 / size := by
  have exact : (c + 1).toNat = c.toNat + 1 := by
    rw [UInt32.toNat_add, UInt32.toNat_one]
    exact Nat.mod_eq_of_lt counted
  simp [boundedQueueAlloc, exact]

/-- There is memory for all slots of the ring if its size is computed without
overflow, and only then. -/
theorem boundedQueueAlloc_spacious_iff (sized : 1 ≤ size) (counted : c.toNat + 1 < 2 ^ 32) :
    c.toNat < (boundedQueueAlloc size c memory).buffer.length ↔
      (c.toNat + 1) * size < 2 ^ 32 := by
  rw [boundedQueueAlloc_length counted, Nat.lt_iff_add_one_le, Nat.le_div_iff_mul_le sized]
  constructor
  · intro whole
    exact whole.trans_lt (Nat.mod_lt _ (by decide))
  · intro fits
    rw [Nat.mod_eq_of_lt fits]

end Allocation

/-! ## The queue is a FIFO list -/

/-- What can be seen of a queue that stands for `items`, the values of the pointers
it returns included. -/
structure Shows (queue : BoundedQueue α) (c : ℕ) (items : List α) : Prop where
  few : items.length ≤ c
  full : boundedQueueFull queue = true ↔ items.length = c
  empty : boundedQueueEmpty queue = true ↔ items = []
  /-- `bounded_queue_head` and what its pointer points to after further calls,
  none of which dequeues. -/
  oldest : ∀ value rest, items = value :: rest → Returns (boundedQueueHead queue) fun elem =>
    ∀ more, dequeues more = 0 → Ensures (fun _ => True) (boundedQueueCalls queue more)
      fun later => later.2.deref elem = .ok value
  /-- `bounded_queue_dequeue` and what its pointer points to after further calls, of
  which at most one enqueues. -/
  dequeued : ∀ value rest, items = value :: rest → Returns (boundedQueueDequeue queue)
    fun answer => ∀ more, (enqueued more).length ≤ 1 →
      Ensures (fun _ => True) (boundedQueueCalls answer.2 more)
        fun later => later.2.deref answer.1 = .ok value

theorem Holds.shows {queue : BoundedQueue α} {c : ℕ} {gone items : List α}
    (holds : Holds queue c gone items) : Shows queue c items where
  few := holds.room
  full := by rw [holds.full, decide_eq_true_iff]
  empty := by rw [holds.empty, decide_eq_true_iff]
  oldest value rest shape := by
    subst shape
    rw [holds.head_eq]
    exact fun more stays => holds.oldest_lasts more stays
  dequeued value rest shape := by
    subst shape
    have room := holds.room
    rw [List.length_cons] at room
    rw [holds.dequeue_eq]
    exact fun more few => holds.leave.dequeued_lasts more (by omega)

/-- The queue made for `c` elements of `size` bytes answers every sequence of calls
as a list of at most `c` elements does, stops where the list does, and shows the
list in between. -/
def RefinesFifo (α : Type) (size : ℕ) (c : UInt32) : Prop :=
  ∀ (memory : ℕ → α) (calls : List (Call α)),
    Agree (fun _ => False)
      (fun answer answer' => answer.1 = answer'.1 ∧ Shows answer.2 c.toNat answer'.2)
      (boundedQueueCalls (boundedQueueAlloc size c memory) calls) (fifoCalls c.toNat [] calls)

/-- `k` values, each dequeued before the next one is enqueued. -/
def passThrough (value : α) : ℕ → List (Call α)
  | 0 => []
  | k + 1 => .enqueue value :: .dequeue :: passThrough value k

theorem fifoCalls_passThrough {c : ℕ} (positive : 1 ≤ c) (value : α) (k : ℕ) :
    Returns (fifoCalls c [] (passThrough value k)) fun _ => True := by
  induction k with
  | zero => trivial
  | succ k ih =>
    have room : ([] : List α).length ≠ c := by
      rw [List.length_nil]
      omega
    simp only [passThrough, fifoCalls, fifoCall, returns_bind, returns_check, returns_pure]
    exact ⟨room, ih⟩

theorem enqueued_passThrough (value : α) (k : ℕ) :
    enqueued (passThrough value k) = List.replicate k value := by
  induction k with
  | zero => rfl
  | succ k ih =>
    rw [List.replicate_succ, ← ih]
    rfl

/-- From an empty queue every sequence of calls answers as the list does if and only if the
bytes of the buffer can be counted: `malloc` is asked for `(c + 1) * size` of them modulo `2 ^
32`. -/
theorem bounded_queue_refines_fifo_iff (α : Type) [Nonempty α] (size : ℕ) (c : UInt32)
    (sized : 1 ≤ size) (positive : 1 ≤ c.toNat) (counted : c.toNat + 1 < 2 ^ 32) :
    RefinesFifo α size c ↔ (c.toNat + 1) * size < 2 ^ 32 := by
  constructor
  · intro refines
    obtain ⟨value⟩ := ‹Nonempty α›
    rw [← @boundedQueueAlloc_spacious_iff α size c (fun _ => value) sized counted]
    obtain ⟨_, specified, -⟩ :=
      (fifoCalls_passThrough positive value (c.toNat + 1)).exists_ok
    obtain ⟨⟨_, queue⟩, ran, -⟩ := ((refines (fun _ => value) _).returns specified).exists_ok
    obtain ⟨⟨_, items⟩, -, -, gone, holds, extended, -, length⟩ :=
      (Holds.calls _ (boundedQueueAlloc_holds counted)).value ran
    rw [enqueued_passThrough, List.nil_append, List.nil_append] at extended
    -- the last of the `c + 1` values is in the last slot of the ring
    have last : queue.buffer[c.toNat % (c.toNat + 1)]? = some value :=
      holds.kept c.toNat value (by simp [extended]) (by simp [extended])
    rw [Nat.mod_eq_of_lt c.toNat.lt_succ_self, List.getElem?_eq_some_iff] at last
    obtain ⟨inside, -⟩ := last
    exact length ▸ inside
  · intro fits memory calls
    have agrees := Holds.calls calls
      (@boundedQueueAlloc_holds α size c memory counted)
    have spacious := (@boundedQueueAlloc_spacious_iff α size c memory sized counted).mpr fits
    refine (agrees.weaken ?_).mono ?_
    · rintro which ⟨-, short⟩
      omega
    · rintro answer answer' ⟨same, gone, holds, -⟩
      exact ⟨same, holds.shows⟩

/-- A queue for two, around the end of its ring. -/
theorem bounded_queue_refines_fifo_pair :
    (2 + 1) * 4 < 2 ^ 32 ∧
      Returns (boundedQueueCalls (boundedQueueAlloc 4 2 fun _ => 0)
          [.enqueue 1, .enqueue 2, .dequeue, .enqueue 3, .dequeue, .head])
        fun answer => answer.1 = [none, none, some 1, none, some 2, some 3] ∧
          Shows answer.2 2 [3] := by
  have refines : RefinesFifo ℕ 4 2 :=
    (bounded_queue_refines_fifo_iff ℕ 4 2 (by decide) (by decide) (by decide)).mpr (by decide)
  have specified : fifoCalls (2 : UInt32).toNat [] [.enqueue 1, .enqueue 2, .dequeue, .enqueue 3,
      .dequeue, .head] = .ok ([none, none, some 1, none, some 2, some 3], [3]) := by decide
  exact ⟨by decide, (refines (fun _ => 0) _).returns specified⟩

/-- Four bytes times `2 ^ 30` slots are no bytes: the first element does not go
into the buffer. -/
theorem enqueue_overruns_large_queue :
    (1073741823 : UInt32).toNat + 1 < 2 ^ 32 ∧
      boundedQueueFull (boundedQueueAlloc 4 1073741823 fun _ => 0) = false ∧
      boundedQueueCalls (boundedQueueAlloc 4 1073741823 fun _ => 0) [.enqueue 7] =
        .error (.fault .overrun) ∧
      fifoCalls (1073741823 : UInt32).toNat [] [.enqueue 7] = .ok ([none], [7]) := by
  decide

end Tasking.BoundedQueues
