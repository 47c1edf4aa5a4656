import Tasking.Bytes
import Tasking.Fallible
import Tasking.Ring

/-!
The channels of `channel_shm/channel.c`, called one after the other.  Buffered
channels are rings of `n + 1` slots; unbuffered ones have a single slot, and
`head` says whether it is taken.  There are three implementations, of which some
functions are shared.

`channelCall_refines`: every operation acts as on a list of payloads bounded by
the capacity, whatever the indices are, so that the implementations cannot be
told apart.
-/
namespace Tasking.Channels
open Fallible

/-- The assertions of `channel.c`, and a copy that would leave the buffer. -/
inductive ChannelFault where
  | emptyUnbuf | fullUnbuf | notFull | notEmpty | itemsize | bounds
  /-- `assert(IS_EMPTY(chan))` for a channel taken from the cache. -/
  | cachedEmpty
  deriving DecidableEq, Repr

abbrev Checked (α : Type) := Fallible.Checked ChannelFault α

/-- `MPMC`, `MPSC`, `SPSC`. -/
inductive Impl where
  | mpmc | mpsc | spsc
  deriving DecidableEq, Repr

abbrev Payload := List UInt8

/-- `struct SHM_channel`, without its locks. -/
structure Channel where
  impl : Impl
  closed : Bool
  size : UInt32
  itemsize : UInt32
  head : UInt32
  tail : UInt32
  buffer : List UInt8
  deriving DecidableEq, Repr

/-! ## The macros -/

def inc (i s : UInt32) : UInt32 := (i + 1) % s

/-- `NUM_ITEMS`; where `size = 0` (from `n = 2 ^ 32 - 1`) the source divides by zero. -/
def numItems (c : Channel) : UInt32 := (c.size + c.tail - c.head) % c.size

def isFull (c : Channel) : Bool := numItems c == c.size - 1

def isEmpty (c : Channel) : Bool := c.head == c.tail

def numItemsUnbuf (c : Channel) : UInt32 := c.head

def isFullUnbuf (c : Channel) : Bool := c.head == 1

def isEmptyUnbuf (c : Channel) : Bool := c.head == 0

def channelBuffered (c : Channel) : Bool := decide (0 < c.size - 1)

/-- `memcpy(chan->buffer + offset, data, size)`. -/
def Channel.copyIn (c : Channel) (offset : UInt32) (data : Payload) : Checked Channel := do
  check (offset.toNat + data.length ≤ c.buffer.length) .bounds
  return { c with buffer := Bytes.patch c.buffer offset.toNat data }

/-- `memcpy(data, chan->buffer + offset, size)`. -/
def Channel.copyOut (c : Channel) (offset : UInt32) (size : ℕ) : Checked Payload := do
  check (offset.toNat + size ≤ c.buffer.length) .bounds
  return Bytes.slice c.buffer offset.toNat size

/-! ## Allocation -/

/-- `channel_alloc`, without a cache; `memory` is what `malloc` finds in the new
buffer. -/
def channelAlloc (size n : UInt32) (impl : Impl) (memory : ℕ → UInt8) : Channel where
  impl := impl
  closed := false
  size := n + 1
  itemsize := size
  head := 0
  tail := 0
  buffer := (List.range ((n + 1) * size).toNat).map memory

/-! ## MPMC -/

def channelSendUnbufferedMpmc (c : Channel) (data : Payload) : Checked (Bool × Channel) := do
  if isFullUnbuf c then return (false, c)
  -- the test is repeated under `head_lock`
  if isFullUnbuf c then return (false, c)
  check (isEmptyUnbuf c) .emptyUnbuf
  check (data.length ≤ c.itemsize.toNat) .itemsize
  let c ← c.copyIn 0 data
  return (true, { c with head := 1 })

def channelSendMpmc (c : Channel) (data : Payload) : Checked (Bool × Channel) := do
  if !channelBuffered c then channelSendUnbufferedMpmc c data
  else
    if isFull c then return (false, c)
    -- the test is repeated under `tail_lock`
    if isFull c then return (false, c)
    check (!isFull c) .notFull
    check (data.length ≤ c.itemsize.toNat) .itemsize
    let c ← c.copyIn (c.tail * c.itemsize) data
    return (true, { c with tail := inc c.tail c.size })

def channelRecvUnbufferedMpmc (c : Channel) (size : ℕ) : Checked (Option Payload × Channel) := do
  if isEmptyUnbuf c then return (none, c)
  if isEmptyUnbuf c then return (none, c)
  check (isFullUnbuf c) .fullUnbuf
  check (size ≤ c.itemsize.toNat) .itemsize
  let data ← c.copyOut 0 size
  let c := { c with head := 0 }
  check (isEmptyUnbuf c) .emptyUnbuf
  return (some data, c)

def channelRecvMpmc (c : Channel) (size : ℕ) : Checked (Option Payload × Channel) := do
  if !channelBuffered c then channelRecvUnbufferedMpmc c size
  else
    if isEmpty c then return (none, c)
    if isEmpty c then return (none, c)
    check (!isEmpty c) .notEmpty
    check (size ≤ c.itemsize.toNat) .itemsize
    let data ← c.copyOut (c.head * c.itemsize) size
    return (some data, { c with head := inc c.head c.size })

/-! ## MPSC -/

def channelSendMpsc (c : Channel) (data : Payload) : Checked (Bool × Channel) :=
  channelSendMpmc c data

def channelRecvUnbufferedMpsc (c : Channel) (size : ℕ) : Checked (Option Payload × Channel) := do
  if isEmptyUnbuf c then return (none, c)
  check (isFullUnbuf c) .fullUnbuf
  check (size ≤ c.itemsize.toNat) .itemsize
  let data ← c.copyOut 0 size
  return (some data, { c with head := 0 })

def channelRecvMpsc (c : Channel) (size : ℕ) : Checked (Option Payload × Channel) := do
  if !channelBuffered c then channelRecvUnbufferedMpsc c size
  else
    if isEmpty c then return (none, c)
    check (!isEmpty c) .notEmpty
    check (size ≤ c.itemsize.toNat) .itemsize
    let data ← c.copyOut (c.head * c.itemsize) size
    return (some data, { c with head := inc c.head c.size })

/-! ## SPSC -/

def channelSendUnbufferedSpsc (c : Channel) (data : Payload) : Checked (Bool × Channel) := do
  if isFullUnbuf c then return (false, c)
  check (isEmptyUnbuf c) .emptyUnbuf
  check (data.length ≤ c.itemsize.toNat) .itemsize
  let c ← c.copyIn 0 data
  return (true, { c with head := 1 })

def channelSendSpsc (c : Channel) (data : Payload) : Checked (Bool × Channel) := do
  if !channelBuffered c then channelSendUnbufferedSpsc c data
  else
    if isFull c then return (false, c)
    check (!isFull c) .notFull
    check (data.length ≤ c.itemsize.toNat) .itemsize
    let c ← c.copyIn (c.tail * c.itemsize) data
    return (true, { c with tail := inc c.tail c.size })

def channelRecvSpsc (c : Channel) (size : ℕ) : Checked (Option Payload × Channel) :=
  channelRecvMpsc c size

/-! ## The function tables -/

def channelSend (c : Channel) (data : Payload) : Checked (Bool × Channel) :=
  match c.impl with
  | .mpmc => channelSendMpmc c data
  | .mpsc => channelSendMpsc c data
  | .spsc => channelSendSpsc c data

def channelReceive (c : Channel) (size : ℕ) : Checked (Option Payload × Channel) :=
  match c.impl with
  | .mpmc => channelRecvMpmc c size
  | .mpsc => channelRecvMpsc c size
  | .spsc => channelRecvSpsc c size

def channelClosed (c : Channel) : Bool := c.closed

/-- `channel_close_*` and `channel_open_*`: set the flag, unless it is set already. -/
def Channel.setClosed (c : Channel) (closed : Bool) : Bool × Channel :=
  if channelClosed c = closed then (false, c) else (true, { c with closed := closed })

def channelCloseMpmc (c : Channel) : Bool × Channel := c.setClosed true

def channelCloseMpsc (c : Channel) : Bool × Channel := c.setClosed true

def channelCloseSpsc (c : Channel) : Bool × Channel := c.setClosed true

def channelOpenMpmc (c : Channel) : Bool × Channel := c.setClosed false

def channelOpenMpsc (c : Channel) : Bool × Channel := c.setClosed false

def channelOpenSpsc (c : Channel) : Bool × Channel := c.setClosed false

def channelClose (c : Channel) : Bool × Channel :=
  match c.impl with
  | .mpmc => channelCloseMpmc c
  | .mpsc => channelCloseMpsc c
  | .spsc => channelCloseSpsc c

def channelOpen (c : Channel) : Bool × Channel :=
  match c.impl with
  | .mpmc => channelOpenMpmc c
  | .mpsc => channelOpenMpsc c
  | .spsc => channelOpenSpsc c

def channelPeek (c : Channel) : UInt32 :=
  if !channelBuffered c then numItemsUnbuf c else numItems c

def channelCapacity (c : Channel) : UInt32 := c.size - 1

/-! ## What a channel holds -/

/-- The channel, made for `n` items, holds these payloads, oldest first; `first`
counts the items received before. -/
structure Holds (c : Channel) (n first : ℕ) (items : List Payload) : Prop where
  size : c.size.toNat = n + 1
  double : 2 * (n + 1) ≤ 2 ^ 32
  fits : (n + 1) * c.itemsize.toNat < 2 ^ 32
  length : c.buffer.length = (n + 1) * c.itemsize.toNat
  room : items.length ≤ max n 1
  indices : 0 < n →
    c.head.toNat = first % (n + 1) ∧ c.tail.toNat = (first + items.length) % (n + 1)
  flag : n = 0 → c.head.toNat = items.length
  unused : n = 0 → c.tail = 0
  contents : ∀ k x, items[k]? = some x → x.length ≤ c.itemsize.toNat ∧
    Bytes.slice c.buffer ((first + k) % (n + 1) * c.itemsize.toNat) x.length = x

section Macros

variable {c : Channel} {n first : ℕ} {items : List Payload}

theorem Holds.buffered (holds : Holds c n first items) : channelBuffered c = decide (0 < n) := by
  have size := holds.size
  have double := holds.double
  have width : (c.size - 1).toNat = n := by
    rw [UInt32.toNat_sub, UInt32.toNat_one]
    omega
  simp [channelBuffered, UInt32.lt_iff_toNat_lt, width]

theorem Holds.numItems (holds : Holds c n first items) (buffered : 0 < n) :
    (numItems c).toNat = items.length := by
  obtain ⟨head, tail⟩ := holds.indices buffered
  have size := holds.size
  have double := holds.double
  have room := holds.room
  have headLt : c.head.toNat < n + 1 := head ▸ Nat.mod_lt _ (Nat.succ_pos n)
  have tailLt : c.tail.toNat < n + 1 := tail ▸ Nat.mod_lt _ (Nat.succ_pos n)
  have exact : (c.size + c.tail - c.head).toNat = n + 1 + c.tail.toNat - c.head.toNat := by
    rw [UInt32.toNat_sub, UInt32.toNat_add]
    omega
  have count : Ring.distance (n + 1) ((first + items.length) % (n + 1)) (first % (n + 1)) =
      first + items.length - first :=
    Ring.distance_eq (Nat.le_add_right first items.length) (by omega)
  rw [Channels.numItems, UInt32.toNat_mod, exact, size, head, tail]
  rw [Ring.distance] at count
  omega

theorem Holds.full (holds : Holds c n first items) (buffered : 0 < n) :
    isFull c = decide (items.length = n) := by
  have count := holds.numItems buffered
  have size := holds.size
  have double := holds.double
  have width : (c.size - 1).toNat = n := by
    rw [UInt32.toNat_sub, UInt32.toNat_one]
    omega
  rw [Bool.eq_iff_iff, isFull, beq_iff_eq, decide_eq_true_iff, ← UInt32.toNat_inj, count, width]

theorem Holds.empty (holds : Holds c n first items) (buffered : 0 < n) :
    isEmpty c = decide (items = []) := by
  obtain ⟨head, tail⟩ := holds.indices buffered
  have room := holds.room
  rw [Bool.eq_iff_iff, isEmpty, beq_iff_eq, decide_eq_true_iff, ← UInt32.toNat_inj, head, tail]
  constructor
  · intro same
    have none := Ring.slot_injective (Nat.le_add_right first items.length) (by omega) same
    exact List.length_eq_zero_iff.mp (by omega)
  · rintro rfl
    simp

theorem Holds.fullUnbuf (holds : Holds c 0 first items) :
    isFullUnbuf c = decide (items.length = 1) := by
  rw [Bool.eq_iff_iff, isFullUnbuf, beq_iff_eq, decide_eq_true_iff, ← UInt32.toNat_inj,
    holds.flag rfl, UInt32.toNat_one]

theorem Holds.emptyUnbuf (holds : Holds c 0 first items) :
    isEmptyUnbuf c = decide (items = []) := by
  rw [Bool.eq_iff_iff, isEmptyUnbuf, beq_iff_eq, decide_eq_true_iff, ← UInt32.toNat_inj,
    holds.flag rfl, UInt32.toNat_zero, List.length_eq_zero_iff]

end Macros

/-! ## Storing and taking an item -/

section Items

variable {c : Channel} {n first : ℕ} {items : List Payload} {data : Payload}

theorem Holds.inside (holds : Holds c n first items) {slot size : ℕ} (small : slot < n + 1)
    (sized : size ≤ c.itemsize.toNat) : slot * c.itemsize.toNat + size ≤ c.buffer.length := by
  rw [holds.length]
  calc slot * c.itemsize.toNat + size ≤ slot * c.itemsize.toNat + c.itemsize.toNat := by omega
    _ = (slot + 1) * c.itemsize.toNat := (Nat.succ_mul _ _).symm
    _ ≤ (n + 1) * c.itemsize.toNat := Nat.mul_le_mul_right _ small

theorem slots_apart {a b width size : ℕ} (differ : a ≠ b) (sized : size ≤ width) :
    a * width + size ≤ b * width ∨ b * width + width ≤ a * width := by
  rcases Nat.lt_or_gt_of_ne differ with below | above
  · left
    have : (a + 1) * width ≤ b * width := Nat.mul_le_mul_right _ below
    rw [Nat.succ_mul] at this
    omega
  · right
    have : (b + 1) * width ≤ a * width := Nat.mul_le_mul_right _ above
    rwa [Nat.succ_mul] at this

/-- The offset of a slot is computed without overflow, because the bytes of the whole buffer can
be counted. -/
theorem Holds.offset (holds : Holds c n first items) {index : UInt32}
    (small : index.toNat < n + 1) :
    (index * c.itemsize).toNat = index.toNat * c.itemsize.toNat := by
  rw [UInt32.toNat_mul]
  apply Nat.mod_eq_of_lt
  calc index.toNat * c.itemsize.toNat ≤ (n + 1) * c.itemsize.toNat :=
        Nat.mul_le_mul_right _ small.le
    _ < 2 ^ 32 := holds.fits

/-- Writing a payload to the slot after the last one. -/
theorem Holds.write (holds : Holds c n first items) (more : items.length < max n 1)
    (sized : data.length ≤ c.itemsize.toNat) {slot : ℕ}
    (place : slot = (first + items.length) % (n + 1)) :
    ∀ k x, (items ++ [data])[k]? = some x → x.length ≤ c.itemsize.toNat ∧
      Bytes.slice (Bytes.patch c.buffer (slot * c.itemsize.toNat) data)
        ((first + k) % (n + 1) * c.itemsize.toNat) x.length = x := by
  have small : slot < n + 1 := place ▸ Nat.mod_lt _ (Nat.succ_pos n)
  have inside := holds.inside small sized
  intro k x stored
  rcases Nat.lt_trichotomy k items.length with old | last | beyond
  · rw [List.getElem?_append_left old] at stored
    obtain ⟨short, here⟩ := holds.contents k x stored
    refine ⟨short, ?_⟩
    rw [Bytes.slice_patch_apart inside]
    · exact here
    · have differ : (first + k) % (n + 1) ≠ slot := by
        rw [place]
        exact Ring.slot_ne (by omega) (by omega)
      have apart := @slots_apart _ _ c.itemsize.toNat _ differ short
      omega
  · subst last
    rw [List.getElem?_append_right le_rfl, Nat.sub_self] at stored
    cases stored
    rw [← place]
    exact ⟨sized, Bytes.slice_patch_same inside⟩
  · rw [List.getElem?_eq_none (by simp; omega)] at stored
    cases stored

theorem copyIn_eq {offset : UInt32} (inside : offset.toNat + data.length ≤ c.buffer.length) :
    c.copyIn offset data = .ok { c with buffer := Bytes.patch c.buffer offset.toNat data } := by
  simp only [Channel.copyIn, check, inside, if_true]
  rfl

theorem copyOut_eq {offset : UInt32} {size : ℕ} (inside : offset.toNat + size ≤ c.buffer.length) :
    c.copyOut offset size = .ok (Bytes.slice c.buffer offset.toNat size) := by
  simp only [Channel.copyOut, check, inside, if_true]
  rfl

/-- The next index, computed without overflow. -/
theorem Holds.inc (holds : Holds c n first items) {index : UInt32} {i : ℕ}
    (here : index.toNat = i % (n + 1)) : (inc index c.size).toNat = (i + 1) % (n + 1) :=
  Ring.toNat_next holds.size here (Nat.succ_pos n)

/-- The end of a send: the payload is copied to the slot at `tail`, which moves on. -/
theorem Holds.put (holds : Holds c n first items) (buffered : 0 < n) (more : items.length < n)
    (sized : data.length ≤ c.itemsize.toNat) :
    ∃ c', (do
        let c ← c.copyIn (c.tail * c.itemsize) data
        return (true, { c with tail := Channels.inc c.tail c.size })) = Except.ok (true, c') ∧
      Holds c' n first (items ++ [data]) ∧ c'.impl = c.impl ∧ c'.closed = c.closed ∧
        c'.itemsize = c.itemsize := by
  obtain ⟨head, tail⟩ := holds.indices buffered
  have small : c.tail.toNat < n + 1 := tail ▸ Nat.mod_lt _ (Nat.succ_pos n)
  have offset := holds.offset small
  have inside := holds.inside small sized
  rw [copyIn_eq (offset.symm ▸ inside)]
  refine ⟨_, rfl, ⟨holds.size, holds.double, holds.fits, ?_, ?_, fun _ => ⟨head, ?_⟩, ?_, ?_, ?_⟩,
    rfl, rfl, rfl⟩
  · rw [Bytes.length_patch (offset.symm ▸ inside)]
    exact holds.length
  · simp only [List.length_append, List.length_singleton]
    omega
  · simp only [List.length_append, List.length_singleton, ← Nat.add_assoc]
    exact holds.inc tail
  · intro unbuffered
    omega
  · intro unbuffered
    omega
  · simp only [offset]
    exact holds.write (by omega) sized tail

theorem Holds.putUnbuf (holds : Holds c 0 first items) (empty : items = [])
    (sized : data.length ≤ c.itemsize.toNat) :
    ∃ c', (do
        let c ← c.copyIn 0 data
        return (true, { c with head := 1 })) = Except.ok (true, c') ∧
      Holds c' 0 first (items ++ [data]) ∧ c'.impl = c.impl ∧ c'.closed = c.closed ∧
        c'.itemsize = c.itemsize := by
  have inside : (0 : UInt32).toNat + data.length ≤ c.buffer.length := by
    simpa using holds.inside Nat.zero_lt_one sized
  rw [copyIn_eq inside]
  refine ⟨_, rfl, ⟨holds.size, holds.double, holds.fits, ?_, ?_, ?_, ?_, holds.unused, ?_⟩, rfl,
    rfl, rfl⟩
  · rw [Bytes.length_patch inside]
    exact holds.length
  · simp [empty]
  · intro wrong
    omega
  · simp [empty]
  · have written := holds.write (by simp [empty]) sized (Nat.mod_one (first + items.length)).symm
    rw [Nat.zero_mul] at written
    exact written

/-- The end of a receive: the payload at `head` is copied, which moves on. -/
theorem Holds.get (holds : Holds c n first (data :: items)) (buffered : 0 < n) :
    ∃ c', (do
        let out ← c.copyOut (c.head * c.itemsize) data.length
        return (some out, { c with head := Channels.inc c.head c.size })) =
          Except.ok (some data, c') ∧
      Holds c' n (first + 1) items ∧ c'.impl = c.impl ∧ c'.closed = c.closed ∧
        c'.itemsize = c.itemsize := by
  obtain ⟨head, tail⟩ := holds.indices buffered
  obtain ⟨sized, here⟩ := holds.contents 0 data rfl
  have small : c.head.toNat < n + 1 := head ▸ Nat.mod_lt _ (Nat.succ_pos n)
  have offset := holds.offset small
  have inside := holds.inside small sized
  have room := holds.room
  simp only [List.length_cons] at room tail
  rw [copyOut_eq (offset.symm ▸ inside), offset, head]
  rw [Nat.add_zero] at here
  rw [here]
  refine ⟨_, rfl, ⟨holds.size, holds.double, holds.fits, holds.length, by omega,
    fun _ => ⟨holds.inc head, ?_⟩, ?_, ?_, ?_⟩, rfl, rfl, rfl⟩
  · rw [tail]
    congr 1
    omega
  · intro unbuffered
    omega
  · intro unbuffered
    omega
  · intro k x stored
    have := holds.contents (k + 1) x stored
    rwa [Nat.add_comm k, ← Nat.add_assoc] at this

theorem Holds.getUnbuf (holds : Holds c 0 first (data :: items)) :
    c.copyOut 0 data.length = .ok data ∧ items = [] ∧
      Holds { c with head := 0 } 0 (first + 1) items := by
  obtain ⟨sized, here⟩ := holds.contents 0 data rfl
  have room := holds.room
  simp only [List.length_cons] at room
  have last : items = [] := List.length_eq_zero_iff.mp (by omega)
  have inside : (0 : UInt32).toNat + data.length ≤ c.buffer.length := by
    simpa using holds.inside Nat.zero_lt_one sized
  have slot : (first + 0) % (0 + 1) * c.itemsize.toNat = (0 : UInt32).toNat := by
    simp [Nat.mod_one]
  rw [slot] at here
  refine ⟨by rw [copyOut_eq inside, here], last, holds.size, holds.double, holds.fits,
    holds.length, ?_, ?_, ?_, holds.unused, ?_⟩
  · simp [last]
  · intro wrong
    omega
  · simp [last]
  · simp [last]

/-- The first bytes of the oldest item: a receive may ask for fewer than were sent. -/
theorem Holds.shorten (holds : Holds c n first (data :: items)) {size : ℕ}
    (short : size ≤ data.length) : Holds c n first (data.take size :: items) := by
  refine { holds with contents := ?_ }
  intro k x stored
  cases k with
  | zero =>
    obtain ⟨sized, here⟩ := holds.contents 0 data rfl
    cases stored
    have length : (data.take size).length = size := by simpa using short
    rw [length, ← Bytes.take_slice short, here]
    exact ⟨by omega, rfl⟩
  | succ k => exact holds.contents (k + 1) x stored

end Items

/-! ## The operations -/

section Operations

variable {c : Channel} {n first : ℕ} {items : List Payload} {data : Payload} {size : ℕ}

/-- What a send does: it appends if there is room, and otherwise does nothing. -/
def SendsAs (c : Channel) (n first : ℕ) (items : List Payload) (data : Payload)
    (run : Checked (Bool × Channel)) : Prop :=
  if items.length < max n 1 then
    ∃ c', run = .ok (true, c') ∧ Holds c' n first (items ++ [data]) ∧ c'.impl = c.impl ∧
      c'.closed = c.closed ∧ c'.itemsize = c.itemsize
  else run = .ok (false, c)

theorem channelSendUnbufferedMpmc_refines (holds : Holds c 0 first items)
    (sized : data.length ≤ c.itemsize.toNat) :
    SendsAs c 0 first items data (channelSendUnbufferedMpmc c data) := by
  have room := holds.room
  by_cases more : items.length < max 0 1
  · have none : items = [] := List.length_eq_zero_iff.mp (by omega)
    rw [SendsAs, if_pos more]
    simpa [channelSendUnbufferedMpmc, holds.fullUnbuf, holds.emptyUnbuf, none, check, ok_bind,
      sized] using holds.putUnbuf none sized
  · have one : items.length = 1 := by omega
    rw [SendsAs, if_neg more]
    simp [channelSendUnbufferedMpmc, holds.fullUnbuf, one, pure, Except.pure]

theorem channelSendUnbufferedSpsc_refines (holds : Holds c 0 first items)
    (sized : data.length ≤ c.itemsize.toNat) :
    SendsAs c 0 first items data (channelSendUnbufferedSpsc c data) := by
  have room := holds.room
  by_cases more : items.length < max 0 1
  · have none : items = [] := List.length_eq_zero_iff.mp (by omega)
    rw [SendsAs, if_pos more]
    simpa [channelSendUnbufferedSpsc, holds.fullUnbuf, holds.emptyUnbuf, none, check, ok_bind,
      sized] using holds.putUnbuf none sized
  · have one : items.length = 1 := by omega
    rw [SendsAs, if_neg more]
    simp [channelSendUnbufferedSpsc, holds.fullUnbuf, one, pure, Except.pure]

theorem channelSendMpmc_refines (holds : Holds c n first items)
    (sized : data.length ≤ c.itemsize.toNat) :
    SendsAs c n first items data (channelSendMpmc c data) := by
  rcases Nat.eq_zero_or_pos n with rfl | buffered
  · simpa [channelSendMpmc, holds.buffered] using channelSendUnbufferedMpmc_refines holds sized
  have room := holds.room
  by_cases more : items.length < max n 1
  · have notFull : items.length ≠ n := by omega
    rw [SendsAs, if_pos more]
    simpa [channelSendMpmc, holds.buffered, buffered, holds.full buffered, notFull, check, ok_bind,
      sized] using holds.put buffered (by omega) sized
  · have full : items.length = n := by omega
    rw [SendsAs, if_neg more]
    simp [channelSendMpmc, holds.buffered, buffered, holds.full buffered, full, pure, Except.pure]

theorem channelSendSpsc_refines (holds : Holds c n first items)
    (sized : data.length ≤ c.itemsize.toNat) :
    SendsAs c n first items data (channelSendSpsc c data) := by
  rcases Nat.eq_zero_or_pos n with rfl | buffered
  · simpa [channelSendSpsc, holds.buffered] using channelSendUnbufferedSpsc_refines holds sized
  have room := holds.room
  by_cases more : items.length < max n 1
  · have notFull : items.length ≠ n := by omega
    rw [SendsAs, if_pos more]
    simpa [channelSendSpsc, holds.buffered, buffered, holds.full buffered, notFull, check, ok_bind,
      sized] using holds.put buffered (by omega) sized
  · have full : items.length = n := by omega
    rw [SendsAs, if_neg more]
    simp [channelSendSpsc, holds.buffered, buffered, holds.full buffered, full, pure, Except.pure]

theorem channelSend_refines (holds : Holds c n first items)
    (sized : data.length ≤ c.itemsize.toNat) :
    SendsAs c n first items data (channelSend c data) := by
  unfold channelSend
  cases c.impl with
  | mpmc => exact channelSendMpmc_refines holds sized
  | mpsc => exact channelSendMpmc_refines holds sized
  | spsc => exact channelSendSpsc_refines holds sized

/-- What a receive does: it removes the oldest item if there is one. -/
def ReceivesAs (c : Channel) (n first : ℕ) (items : List Payload)
    (run : Checked (Option Payload × Channel)) : Prop :=
  match items with
  | [] => run = .ok (none, c)
  | x :: rest => ∃ c', run = .ok (some x, c') ∧ Holds c' n (first + 1) rest ∧
      c'.impl = c.impl ∧ c'.closed = c.closed ∧ c'.itemsize = c.itemsize

theorem channelRecvUnbufferedMpmc_refines (holds : Holds c 0 first items)
    (sized : ∀ x ∈ items.head?, size = x.length) :
    ReceivesAs c 0 first items (channelRecvUnbufferedMpmc c size) := by
  cases items with
  | nil => simp [ReceivesAs, channelRecvUnbufferedMpmc, holds.emptyUnbuf, pure, Except.pure]
  | cons x rest =>
    obtain ⟨copied, rfl, holds'⟩ := holds.getUnbuf
    obtain rfl : size = x.length := sized x rfl
    have short := (holds.contents 0 x rfl).1
    refine ⟨{ c with head := 0 }, ?_, holds', rfl, rfl, rfl⟩
    simp [channelRecvUnbufferedMpmc, holds.emptyUnbuf, holds.fullUnbuf, holds'.emptyUnbuf, check,
      short, copied, pure, Except.pure, bind, Except.bind]

theorem channelRecvUnbufferedMpsc_refines (holds : Holds c 0 first items)
    (sized : ∀ x ∈ items.head?, size = x.length) :
    ReceivesAs c 0 first items (channelRecvUnbufferedMpsc c size) := by
  cases items with
  | nil => simp [ReceivesAs, channelRecvUnbufferedMpsc, holds.emptyUnbuf, pure, Except.pure]
  | cons x rest =>
    obtain ⟨copied, rfl, holds'⟩ := holds.getUnbuf
    obtain rfl : size = x.length := sized x rfl
    have short := (holds.contents 0 x rfl).1
    refine ⟨{ c with head := 0 }, ?_, holds', rfl, rfl, rfl⟩
    simp [channelRecvUnbufferedMpsc, holds.emptyUnbuf, holds.fullUnbuf, check, short, copied,
      pure, Except.pure, bind, Except.bind]

theorem channelRecvMpmc_refines (holds : Holds c n first items)
    (sized : ∀ x ∈ items.head?, size = x.length) :
    ReceivesAs c n first items (channelRecvMpmc c size) := by
  rcases Nat.eq_zero_or_pos n with rfl | buffered
  · simpa [channelRecvMpmc, holds.buffered] using channelRecvUnbufferedMpmc_refines holds sized
  cases items with
  | nil => simp [ReceivesAs, channelRecvMpmc, holds.buffered, buffered, holds.empty buffered,
      pure, Except.pure]
  | cons x rest =>
    obtain rfl : size = x.length := sized x rfl
    have short := (holds.contents 0 x rfl).1
    simpa [ReceivesAs, channelRecvMpmc, holds.buffered, buffered, holds.empty buffered,
      check, short, ok_bind] using holds.get buffered

theorem channelRecvMpsc_refines (holds : Holds c n first items)
    (sized : ∀ x ∈ items.head?, size = x.length) :
    ReceivesAs c n first items (channelRecvMpsc c size) := by
  rcases Nat.eq_zero_or_pos n with rfl | buffered
  · simpa [channelRecvMpsc, holds.buffered] using channelRecvUnbufferedMpsc_refines holds sized
  cases items with
  | nil => simp [ReceivesAs, channelRecvMpsc, holds.buffered, buffered, holds.empty buffered,
      pure, Except.pure]
  | cons x rest =>
    obtain rfl : size = x.length := sized x rfl
    have short := (holds.contents 0 x rfl).1
    simpa [ReceivesAs, channelRecvMpsc, holds.buffered, buffered, holds.empty buffered,
      check, short, ok_bind] using holds.get buffered

theorem channelReceive_refines (holds : Holds c n first items)
    (sized : ∀ x ∈ items.head?, size = x.length) :
    ReceivesAs c n first items (channelReceive c size) := by
  unfold channelReceive
  cases c.impl with
  | mpmc => exact channelRecvMpmc_refines holds sized
  | mpsc => exact channelRecvMpsc_refines holds sized
  | spsc => exact channelRecvMpsc_refines holds sized

theorem channelClose_eq (c : Channel) : channelClose c = c.setClosed true := by
  unfold channelClose
  cases c.impl <;> rfl

theorem channelOpen_eq (c : Channel) : channelOpen c = c.setClosed false := by
  unfold channelOpen
  cases c.impl <;> rfl

theorem channelPeek_refines (holds : Holds c n first items) :
    (channelPeek c).toNat = items.length := by
  rcases Nat.eq_zero_or_pos n with rfl | buffered
  · simpa [channelPeek, holds.buffered, numItemsUnbuf] using holds.flag rfl
  · simpa [channelPeek, holds.buffered, buffered] using holds.numItems buffered

theorem channelCapacity_refines (holds : Holds c n first items) :
    (channelCapacity c).toNat = n := by
  have size := holds.size
  have double := holds.double
  rw [channelCapacity, UInt32.toNat_sub, UInt32.toNat_one]
  omega

theorem channelAlloc_length {size count : UInt32} {impl : Impl} {memory : ℕ → UInt8} :
    (channelAlloc size count impl memory).buffer.length = ((count + 1) * size).toNat := by
  simp [channelAlloc]

theorem channelAlloc_holds {size count : UInt32} {impl : Impl} {memory : ℕ → UInt8}
    (fits : (count.toNat + 1) * size.toNat < 2 ^ 32) (double : 2 * (count.toNat + 1) ≤ 2 ^ 32) :
    Holds (channelAlloc size count impl memory) count.toNat 0 [] := by
  have next : (count + 1).toNat = count.toNat + 1 := by
    rw [UInt32.toNat_add, UInt32.toNat_one]
    omega
  have bufsize : ((count + 1) * size).toNat = (count.toNat + 1) * size.toNat := by
    rw [UInt32.toNat_mul, next]
    exact Nat.mod_eq_of_lt fits
  refine ⟨next, double, fits, ?_, by simp, fun _ => ?_, fun _ => rfl, fun _ => rfl, by simp⟩
  · exact channelAlloc_length.trans bufsize
  · simp [channelAlloc]

end Operations

/-! ## Sequences of calls -/

inductive Call where
  | send (data : Payload)
  | receive (size : ℕ)
  | peek
  | capacity
  deriving DecidableEq, Repr

inductive Reply where
  | sent (ok : Bool)
  | received (data : Option Payload)
  | number (k : ℕ)
  deriving DecidableEq, Repr

/-- The call had no effect. -/
def Reply.failed : Reply → Bool
  | .sent ok => !ok
  | .received data => data.isNone
  | .number _ => true

def channelCall (c : Channel) : Call → Checked (Reply × Channel)
  | .send data => do
    let (ok, c) ← channelSend c data
    return (.sent ok, c)
  | .receive size => do
    let (data, c) ← channelReceive c size
    return (.received data, c)
  | .peek => return (.number (channelPeek c).toNat, c)
  | .capacity => return (.number (channelCapacity c).toNat, c)

def channelCalls (c : Channel) : List Call → Checked (List Reply × Channel)
  | [] => return ([], c)
  | call :: calls => do
    let (reply, c) ← channelCall c call
    let (replies, c) ← channelCalls c calls
    return (reply :: replies, c)

/-- A bounded queue of payloads.  Payloads are no larger than `width`, and a
receive asks for the size that was sent. -/
def fifoCall (n width : ℕ) (items : List Payload) : Call → Option (Reply × List Payload)
  | .send data =>
    if width < data.length then none
    else if items.length < max n 1 then some (.sent true, items ++ [data])
    else some (.sent false, items)
  | .receive size =>
    match items with
    | [] => some (.received none, [])
    | x :: rest => if size = x.length then some (.received (some x), rest) else none
  | .peek => some (.number items.length, items)
  | .capacity => some (.number n, items)

def fifoCalls (n width : ℕ) (items : List Payload) : List Call → Option (List Reply × List Payload)
  | [] => some ([], items)
  | call :: calls => do
    let (reply, items) ← fifoCall n width items call
    let (replies, items) ← fifoCalls n width items calls
    return (reply :: replies, items)

section Calls

variable {c c' : Channel} {n first : ℕ} {items items' : List Payload} {call : Call} {reply : Reply}

theorem channelCall_refines (holds : Holds c n first items)
    (legal : fifoCall n c.itemsize.toNat items call = some (reply, items')) :
    ∃ c' first', channelCall c call = .ok (reply, c') ∧ Holds c' n first' items' ∧
      c'.itemsize = c.itemsize ∧ (reply.failed = true → c' = c) := by
  cases call with
  | send data =>
    simp only [fifoCall] at legal
    split at legal
    · cases legal
    next sized =>
      have sends := channelSend_refines holds (Nat.le_of_not_lt sized)
      rw [SendsAs] at sends
      split at legal
      · next room =>
        cases legal
        rw [if_pos room] at sends
        obtain ⟨c', sent, holds', -, -, itemsize⟩ := sends
        refine ⟨c', first, ?_, holds', itemsize, fun failed =>
          absurd failed (by simp [Reply.failed])⟩
        simp only [channelCall, sent, ok_bind]
        rfl
      · next full =>
        cases legal
        rw [if_neg full] at sends
        refine ⟨c, first, ?_, holds, rfl, fun _ => rfl⟩
        simp only [channelCall, sends, ok_bind]
        rfl
  | receive size =>
    cases items with
    | nil =>
      simp only [fifoCall, Option.some.injEq, Prod.mk.injEq] at legal
      obtain ⟨rfl, rfl⟩ := legal
      have receives := @channelReceive_refines c n first [] size holds (by simp)
      refine ⟨c, first, ?_, holds, rfl, fun _ => rfl⟩
      simp only [channelCall, show channelReceive c size = .ok (none, c) from receives, ok_bind]
      rfl
    | cons x rest =>
      simp only [fifoCall] at legal
      split at legal
      · next sized =>
        cases legal
        obtain ⟨c', received, holds', -, -, itemsize⟩ :=
          @channelReceive_refines c n first (x :: items') size holds (by simpa using sized)
        refine ⟨c', first + 1, ?_, holds', itemsize,
          fun failed => absurd failed (by simp [Reply.failed])⟩
        simp only [channelCall, received, ok_bind]
        rfl
      · cases legal
  | peek =>
    cases legal
    exact ⟨c, first, by simp [channelCall, channelPeek_refines holds, pure, Except.pure],
      holds, rfl, fun _ => rfl⟩
  | capacity =>
    cases legal
    exact ⟨c, first, by simp [channelCall, channelCapacity_refines holds, pure, Except.pure], holds,
      rfl, fun _ => rfl⟩

theorem channelCalls_refines {calls : List Call} : ∀ {c : Channel} {first : ℕ}
    {items items' : List Payload} {replies : List Reply}, Holds c n first items →
    fifoCalls n c.itemsize.toNat items calls = some (replies, items') →
    ∃ c' first', channelCalls c calls = .ok (replies, c') ∧ Holds c' n first' items' ∧
      c'.itemsize = c.itemsize := by
  induction calls with
  | nil =>
    intro c first items items' replies holds legal
    cases legal
    exact ⟨c, first, rfl, holds, rfl⟩
  | cons call calls ih =>
    intro c first items items' replies holds legal
    simp only [fifoCalls, bind, Option.bind_eq_some_iff] at legal
    obtain ⟨⟨reply, middle⟩, one, ⟨later, final⟩, others, same⟩ := legal
    obtain ⟨rfl, rfl⟩ : reply :: later = replies ∧ final = items' := by simpa using same
    obtain ⟨c₁, first₁, called, holds₁, itemsize₁, -⟩ := channelCall_refines holds one
    rw [← itemsize₁] at others
    obtain ⟨c₂, first₂, calledRest, holds₂, itemsize₂⟩ := ih holds₁ others
    refine ⟨c₂, first₂, ?_, holds₂, itemsize₂.trans itemsize₁⟩
    simp only [channelCalls, called, ok_bind, calledRest]
    rfl

end Calls

/-- A channel made for `n` items of up to `size` bytes answers every sequence of
legal calls as the bounded queue does, whichever implementation it has; no
assertion fails, and a call that fails leaves the channel as it is. -/
theorem channels_refine_fifo (size n : UInt32) (fits : (n.toNat + 1) * size.toNat < 2 ^ 32)
    (double : 2 * (n.toNat + 1) ≤ 2 ^ 32) (calls : List Call) {replies : List Reply}
    {items : List Payload}
    (legal : fifoCalls n.toNat size.toNat [] calls = some (replies, items)) :
    ∀ (impl : Impl) (memory : ℕ → UInt8),
      ∃ c first, channelCalls (channelAlloc size n impl memory) calls = .ok (replies, c) ∧
        Holds c n.toNat first items ∧
        ∀ call reply items', fifoCall n.toNat size.toNat items call = some (reply, items') →
          ∃ c', channelCall c call = .ok (reply, c') ∧ (reply.failed = true → c' = c) := by
  intro impl memory
  have start : Holds (channelAlloc size n impl memory) n.toNat 0 [] :=
    channelAlloc_holds fits double
  obtain ⟨c, first, called, holds, itemsize⟩ := channelCalls_refines start legal
  refine ⟨c, first, called, holds, ?_⟩
  intro call reply items' next
  have width : c.itemsize = size := itemsize
  rw [← width] at next
  obtain ⟨c', first', answered, -, -, unchanged⟩ := channelCall_refines holds next
  exact ⟨c', answered, unchanged⟩

/-- A ring of two, around its end and until it is full. -/
theorem channels_refine_fifo_wraps :
    (fifoCalls 2 4 [] [.send [1], .send [2], .receive 1, .send [3, 4], .send [5], .peek,
      .receive 1]).isSome = true ∧
      ∃ c, channelCalls (channelAlloc 4 2 .spsc fun _ => 0) [.send [1], .send [2], .receive 1,
        .send [3, 4], .send [5], .peek, .receive 1] =
          .ok ([.sent true, .sent true, .received (some [1]), .sent true, .sent false, .number 2,
            .received (some [2])], c) :=
  ⟨by decide, by
    obtain ⟨c, first, called, -⟩ := channels_refine_fifo 4 2 (by decide) (by decide)
      [.send [1], .send [2], .receive 1, .send [3, 4], .send [5], .peek, .receive 1] rfl .spsc
      fun _ => 0
    exact ⟨c, called⟩⟩

end Tasking.Channels
