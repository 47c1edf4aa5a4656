import Tasking.Channel
import Tasking.LazyFutures

/-!
The bytes of a lazy future.  `lazy_future` is a union of eight bytes followed by the
flags `has_channel` and `set`; `FUTURE_SET` copies a result of any size to the start of
the union, or sends it through the channel the union points to.

`Shows` relates these bytes to the futures of the runtime model, which have no size.
Every operation on the bytes does what the operation on the future does, as long as the
result fits into the union (`Shows.write`), and a larger result is written over the flags
(`large_result_clobbers`).
-/
namespace Tasking.FutureBytes
open Channels Fallible Tasking.Runtime

inductive FutureFault where
  /-- `assert((fut)->chan != NULL)` in `FUTURE_SET`. -/
  | setNull
  /-- `assert(f->set)` and `assert(f->chan != NULL)` at the end of `RT_force_future`, and
  `assert(channel_impl(f->chan) == SPSC)`. -/
  | notSet | chanNull | chanImpl
  /-- A pointer to no channel is followed. -/
  | wildPointer
  /-- An assertion of the channel operations. -/
  | channel (which : ChannelFault)
  deriving DecidableEq, Repr

abbrev Checked (α : Type) := Fallible.Checked FutureFault α

/-- A pointer, by its bytes. -/
abbrev Pointer := List UInt8

def null : Pointer := List.replicate 8 0

/-- The memory from the address of a `lazy_future` on.  The object is sixteen bytes; what
follows is somebody else's. -/
structure Memory where
  bytes : ℕ → UInt8
  channels : Pointer → Option Channel

/-- `memcpy` to an offset. -/
def Memory.poke (m : Memory) (offset : ℕ) (data : List UInt8) : Memory :=
  { m with bytes := Bytes.poke m.bytes offset data }

/-- `memcpy` from an offset. -/
def Memory.peek (m : Memory) (offset size : ℕ) : List UInt8 :=
  Bytes.peek m.bytes offset size

/-- `f->chan`. -/
def Memory.chan (m : Memory) : Pointer := m.peek 0 8

/-- `f->has_channel`. -/
def Memory.hasChannel (m : Memory) : Bool := m.bytes 8 != 0

/-- `f->set`. -/
def Memory.set (m : Memory) : Bool := m.bytes 9 != 0

def Memory.load (m : Memory) (p : Pointer) : Checked Channel :=
  match m.channels p with
  | some c => .ok c
  | none => .error (.fault .wildPointer)

def Memory.setChannel (m : Memory) (p : Pointer) (content : Option Channel) : Memory :=
  { m with channels := Function.update m.channels p content }

/-- An assertion that fails in a channel operation. -/
def ofChannel {α : Type} : Channels.Checked α → Checked α
  | .ok value => .ok value
  | .error .disabled => .error .disabled
  | .error (.fault which) => .error (.fault (.channel which))

/-! ## The macros -/

/-- `FUTURE_ALLOC`. -/
def futureAlloc (m : Memory) : Memory := ((m.poke 0 null).poke 8 [0]).poke 9 [0]

/-- What `channel_alloc` may return: a pointer other than `NULL`, where there is no channel yet.
-/
structure Memory.Free (m : Memory) (p : Pointer) : Prop where
  width : p.length = 8
  notNull : p ≠ null
  unused : m.channels p = none

/-- `FUTURE_CONVERT`; `p` is the address of the new channel, whose buffer holds `rest`. -/
def futureConvert (p : Pointer) (rest : ℕ → UInt8) (m : Memory) : Memory :=
  if m.hasChannel then m
  else ((m.setChannel p (some (channelAlloc 8 0 .spsc rest))).poke 0 p).poke 8 [1]

/-- The future `split_loop` makes for the task it sends away.  Its channel takes 32 bytes, where
that of a converted future takes eight. -/
def splitFuture (p : Pointer) (rest : ℕ → UInt8) (m : Memory) : Memory :=
  (((m.setChannel p (some (channelAlloc 32 0 .spsc rest))).poke 0 p).poke 8 [1]).poke 9 [0]

/-- `FUTURE_SET`. -/
def futureSet (res : Payload) (m : Memory) : Checked Memory :=
  if !m.hasChannel then return (m.poke 0 res).poke 9 [1]
  else do
    check (m.chan ≠ null) .setNull
    let c ← m.load m.chan
    let (_, c) ← ofChannel (channelSend c res)
    return m.setChannel m.chan (some c)

/-- `READY`: whether it holds, and what it received. -/
def ready (size : ℕ) (m : Memory) : Checked (Bool × Option Payload × Memory) :=
  if m.hasChannel then do
    let c ← m.load m.chan
    let (data, c) ← ofChannel (channelReceive c size)
    return (data.isSome || m.set, data, m.setChannel m.chan (some c))
  else return (m.set, none, m)

/-- The code at `RT_force_future_return`. -/
def forceReturn (size : ℕ) (data : Option Payload) (m : Memory) :
    Checked (Option Payload × Memory) :=
  if !m.hasChannel then do
    check m.set .notSet
    return (some (m.peek 0 size), m)
  else do
    check (m.chan ≠ null) .chanNull
    let c ← m.load m.chan
    check (c.impl = .spsc) .chanImpl
    return (data, m.setChannel m.chan none)

/-- One evaluation of `READY` in `RT_force_future`, and the return if it holds; what is
returned is what `data` points to. -/
def force (size : ℕ) (m : Memory) : Checked (Option (Option Payload) × Memory) := do
  let (isReady, data, m) ← ready size m
  if isReady then
    let (result, m) ← forceReturn size data m
    return (some result, m)
  else return (none, m)

/-! ## Reading what was written -/

section Bytes

variable {m : Memory} {data : List UInt8} {offset size i : ℕ}

theorem poke_byte {b : UInt8} : (m.poke offset [b]).bytes offset = b := by
  simp [Memory.poke, Bytes.poke]

theorem poke_outside (outside : i < offset ∨ offset + data.length ≤ i) :
    (m.poke offset data).bytes i = m.bytes i :=
  Bytes.poke_outside outside

theorem peek_poke_same : (m.poke offset data).peek offset data.length = data :=
  Bytes.peek_poke_same

theorem peek_poke_apart {from_ : ℕ} (apart : from_ + size ≤ offset ∨ offset + data.length ≤ from_) :
    (m.poke offset data).peek from_ size = m.peek from_ size :=
  Bytes.peek_poke_apart apart

@[simp] theorem channels_poke : (m.poke offset data).channels = m.channels := rfl

@[simp] theorem bytes_setChannel {p : Pointer} {content : Option Channel} :
    (m.setChannel p content).bytes = m.bytes := rfl

@[simp] theorem channels_setChannel {p : Pointer} {content : Option Channel} :
    (m.setChannel p content).channels p = content := by
  simp [Memory.setChannel]

end Bytes

/-! ## The futures of the runtime model -/

/-- The bytes are those of the future `f`; its channel, once it has one, is at `p`. -/
structure Shows (p : Pointer) (m : Memory) (f : LazyFuture) : Prop where
  flag : m.bytes 8 = if f.hasChannel then 1 else 0
  done : m.bytes 9 = if f.set then 1 else 0
  union : match f.cell with
    | .null => True
    | .chan => m.chan = p ∧ (f.frees = 0 → ∃ c first, m.channels p = some c ∧ c.impl = .spsc ∧
        8 ≤ c.itemsize.toNat ∧ Holds c 0 first f.slot.toList)
    | .buf value => m.peek 0 value.length = value

/-- Nothing but the future and its channel has changed. -/
structure Frame (p : Pointer) (m m' : Memory) : Prop where
  bytes : ∀ i, 10 ≤ i → m'.bytes i = m.bytes i
  channels : ∀ q, q ≠ p → m'.channels q = m.channels q

structure Valid (p : Pointer) : Prop where
  width : p.length = 8
  notNull : p ≠ null

variable {p : Pointer} {m m' : Memory} {f : LazyFuture} {rest : ℕ → UInt8} {value : Payload}
  {size : ℕ}

theorem Frame.refl : Frame p m m := ⟨fun _ _ => rfl, fun _ _ => rfl⟩

theorem Frame.trans {m'' : Memory} (first : Frame p m m') (second : Frame p m' m'') :
    Frame p m m'' :=
  ⟨fun i beyond => (second.bytes i beyond).trans (first.bytes i beyond),
    fun q other => (second.channels q other).trans (first.channels q other)⟩

theorem Frame.poke {offset : ℕ} {data : List UInt8} (inside : offset + data.length ≤ 10) :
    Frame p m (m.poke offset data) :=
  ⟨fun _ beyond => poke_outside (.inr (inside.trans beyond)), fun _ _ => rfl⟩

theorem Frame.setChannel {content : Option Channel} : Frame p m (m.setChannel p content) :=
  ⟨fun _ _ => rfl, fun _ other => Function.update_of_ne other _ _⟩

theorem Shows.hasChannel (shows_ : Shows p m f) : m.hasChannel = f.hasChannel := by
  rw [Memory.hasChannel, shows_.flag]
  cases f.hasChannel <;> rfl

theorem Shows.set (shows_ : Shows p m f) : m.set = f.set := by
  rw [Memory.set, shows_.done]
  cases f.set <;> rfl

/-- `FUTURE_ALLOC` on either level; the future is going to be awaited. -/
theorem alloc_shows {creator : ℕ} :
    Shows p (futureAlloc m) { LazyFuture.alloc creator with awaited := true } ∧
      Frame p m (futureAlloc m) := by
  refine ⟨⟨?_, poke_byte, trivial⟩, ?_⟩
  · rw [futureAlloc, poke_outside (by simp)]
    exact poke_byte
  · exact ((Frame.poke (by decide)).trans (Frame.poke (by decide))).trans (Frame.poke (by decide))

/-- The state after a channel was made for the future. -/
theorem channel_shows {width : UInt32} {m' : Memory} {f : LazyFuture}
    (large : 8 ≤ width.toNat) (fits : width.toNat < 2 ^ 32)
    (made : m'.channels p = some (channelAlloc width 0 .spsc rest)) (chan : m'.chan = p)
    (flag : m'.bytes 8 = 1) (done : m'.bytes 9 = if f.set then 1 else 0)
    (form : f.cell = .chan ∧ f.hasChannel = true ∧ f.slot = none) : Shows p m' f := by
  obtain ⟨cell, channel, slot⟩ := form
  refine ⟨by rw [flag, channel]; rfl, done, ?_⟩
  rw [cell]
  refine ⟨chan, fun _ => ⟨_, 0, made, rfl, large, ?_⟩⟩
  rw [slot]
  exact channelAlloc_holds (by simpa using fits) (by decide)

theorem Shows.convert (shows_ : Shows p m f) (valid : Valid p) (rest : ℕ → UInt8) :
    Shows p (futureConvert p rest m) f.convert ∧ Frame p m (futureConvert p rest m) := by
  rw [futureConvert, shows_.hasChannel]
  cases channel : f.hasChannel with
  | true =>
    rw [if_pos rfl, LazyFuture.convert_of_hasChannel channel]
    exact ⟨shows_, .refl⟩
  | false =>
    rw [if_neg Bool.false_ne_true]
    constructor
    · refine @channel_shows p rest 8 _ _ (by decide) (by decide) ?_ ?_ poke_byte ?_ ?_
      · simp
      · rw [Memory.chan, peek_poke_apart (by simp), ← valid.width]
        exact peek_poke_same
      · rw [poke_outside (by simp), poke_outside (by rw [valid.width]; simp), bytes_setChannel,
          shows_.done]
        simp [LazyFuture.convert, channel]
      · simp [LazyFuture.convert, channel]
    · exact (Frame.setChannel.trans (Frame.poke (by rw [valid.width]; decide))).trans
        (Frame.poke (by decide))

theorem split_shows {creator : ℕ} (valid : Valid p) :
    Shows p (splitFuture p rest m) { LazyFuture.heap creator with awaited := true } ∧
      Frame p m (splitFuture p rest m) := by
  constructor
  · refine @channel_shows p rest 32 _ _ (by decide) (by decide) ?_ ?_ ?_ poke_byte ?_
    · simp [splitFuture]
    · rw [splitFuture, Memory.chan, peek_poke_apart (by simp), peek_poke_apart (by simp),
        ← valid.width]
      exact peek_poke_same
    · rw [splitFuture, poke_outside (by simp)]
      exact poke_byte
    · exact ⟨rfl, rfl, rfl⟩
  · exact ((Frame.setChannel.trans (Frame.poke (by rw [valid.width]; decide))).trans
      (Frame.poke (by decide))).trans (Frame.poke (by decide))

/-- `FUTURE_SET` on either level, for a result that fits into the union. -/
theorem Shows.write (shows_ : Shows p m f) (valid : Valid p) (sound : f.Sound)
    (unset : f.passed = none) (small : value.length ≤ 8) :
    ∃ m' g, futureSet value m = .ok m' ∧ f.write value = .ok g ∧ Shows p m' g ∧ Frame p m m' := by
  have channel := shows_.hasChannel
  have union := shows_.union
  cases sound with
  | fresh =>
    refine ⟨(m.poke 0 value).poke 9 [1], _, ?_, rfl, ⟨?_, poke_byte, ?_⟩, ?_⟩
    · simp [futureSet, channel, pure, Except.pure]
    · rw [poke_outside (by simp), poke_outside (by omega), shows_.flag]
    · change ((m.poke 0 value).poke 9 [1]).peek 0 value.length = value
      rw [peek_poke_apart (by omega)]
      exact peek_poke_same
    · exact (Frame.poke (by omega)).trans (Frame.poke (by decide))
  | converted =>
    obtain ⟨chan, rest⟩ := union
    obtain ⟨c, first, known, impl, large, holds⟩ := rest rfl
    have sends : SendsAs c 0 first [] value (channelSend c value) :=
      channelSend_refines holds (by omega)
    rw [SendsAs, if_pos (by simp)] at sends
    obtain ⟨c', sent, holds', impl', -, itemsize⟩ := sends
    refine ⟨m.setChannel p (some c'), _, ?_, rfl, ⟨shows_.flag, shows_.done, chan, ?_⟩, .setChannel⟩
    · simp only [futureSet, channel, chan, check, if_pos valid.notNull, Memory.load, known, ok_bind,
        sent, ofChannel]
      rfl
    · intro _
      exact ⟨c', first, channels_setChannel, impl'.trans impl, itemsize ▸ large, holds'⟩
  | stored | read | sent | delivered => cases unset

/-- `READY` on either level, before the future is set. -/
theorem Shows.force_unset (shows_ : Shows p m f) (sound : f.Sound) (unset : f.passed = none) :
    force size m = .ok (none, m) ∧ f.force = .ok none := by
  have channel := shows_.hasChannel
  have done := shows_.set
  have union := shows_.union
  cases sound with
  | fresh =>
    refine ⟨?_, rfl⟩
    simp [force, ready, channel, done, pure, Except.pure, bind, Except.bind]
  | converted =>
    refine ⟨?_, rfl⟩
    obtain ⟨chan, rest⟩ := union
    obtain ⟨c, first, known, -, -, holds⟩ := rest rfl
    have receives : channelReceive c size = .ok (none, c) := channelReceive_refines holds (by simp)
    have same : m.setChannel p (some c) = m := by
      rw [Memory.setChannel, ← known, Function.update_eq_self]
    simp only [force, ready, channel, if_true, chan, Memory.load, known, ok_bind, receives,
      ofChannel, done]
    rw [same]
    rfl
  | stored | read | sent | delivered => cases unset

/-- The return from `RT_force_future` on either level. -/
theorem Shows.force_set (shows_ : Shows p m f) (valid : Valid p) (sound : f.Sound)
    (asked : f.awaited = true) (fresh : f.result = none) (passed : f.passed = some value) :
    ∃ m' g, force value.length m = .ok (some (some value), m') ∧ f.force = .ok (some g) ∧
      g.result = some value ∧ Shows p m' g ∧ Frame p m m' := by
  have channel := shows_.hasChannel
  have done := shows_.set
  have union := shows_.union
  cases sound with
  | stored =>
    cases passed
    have content : m.peek 0 value.length = value := union
    refine ⟨m, _, ?_, rfl, rfl, ⟨shows_.flag, shows_.done, content⟩, .refl⟩
    simp [force, ready, forceReturn, channel, done, check, content, pure, Except.pure, bind,
      Except.bind]
  | sent =>
    cases passed
    obtain ⟨chan, rest⟩ := union
    obtain ⟨c, first, known, impl, -, holds⟩ := rest rfl
    obtain ⟨c', received, -, impl', -⟩ :=
      @channelReceive_refines c 0 first [value] value.length holds (by simp)
    refine ⟨(m.setChannel p (some c')).setChannel p none, _, ?_, rfl, rfl,
      ⟨shows_.flag, shows_.done, chan, by simp⟩, Frame.setChannel.trans Frame.setChannel⟩
    have isReady : ready value.length m = .ok (true, some value, m.setChannel p (some c')) := by
      simp only [ready, channel, if_true, chan, Memory.load, known, ok_bind, received, ofChannel]
      rfl
    have chan' : (m.setChannel p (some c')).chan = p := chan
    have channel' : (m.setChannel p (some c')).hasChannel = true := channel
    have known' : (m.setChannel p (some c')).channels p = some c' := channels_setChannel
    have returned : forceReturn value.length (some value) (m.setChannel p (some c')) =
        .ok (some value, (m.setChannel p (some c')).setChannel p none) := by
      simp only [forceReturn, channel', Bool.not_true, Bool.false_eq_true, if_false, chan', check,
        ne_eq, valid.notNull, not_false_eq_true, if_true, Memory.load, known', ok_bind,
        impl'.trans impl]
      rfl
    rw [force, isReady, ok_bind]
    simp only [if_true, returned]
    rfl
  | fresh | converted => cases passed
  | read | delivered => cases fresh

/-! ## The ways a task is run -/

/-- What happens to a future's task before it runs: nothing; it is stolen, and perhaps
stolen again; or `split_loop` makes it, and it may be stolen, too. -/
inductive Path where
  | here
  | stolen (again : ℕ)
  | fragment (again : ℕ)
  deriving DecidableEq, Repr

/-- The future when its task is about to run. -/
def Path.prepare (path : Path) (p : Pointer) (rest : ℕ → UInt8) (m : Memory) : Memory :=
  match path with
  | .here => futureAlloc m
  | .stolen again => (futureConvert p rest)^[again + 1] (futureAlloc m)
  | .fragment again => (futureConvert p rest)^[again] (splitFuture p rest m)

/-- `has_channel` and `set` once the task has run. -/
def Path.flags : Path → UInt8 × UInt8
  | .here => (0, 1)
  | .stolen _ | .fragment _ => (1, 0)

/-- A future without `LAZY_FUTURES`: `FUTURE_ALLOC`, `FUTURE_SET` and `FUTURE_GET`. -/
def eager (rest : ℕ → UInt8) (size : ℕ) (res : Payload) : Channels.Checked (Option Payload) := do
  let c := channelAlloc (UInt32.ofNat size) 0 .spsc rest
  let (_, c) ← channelSend c res
  let (data, _) ← channelReceive c size
  return data

/-- The task runs and its result is awaited, as the protocol wants it: the future is not
ready before, the flags are as they should be after, nothing else is written, and the
result is that of an eager future. -/
def Runs (path : Path) (m : Memory) (p : Pointer) (rest : ℕ → UInt8) (res : Payload) : Prop :=
  ∃ m' m'', force res.length (path.prepare p rest m) = .ok (none, path.prepare p rest m) ∧
    futureSet res (path.prepare p rest m) = .ok m' ∧ (m'.bytes 8, m'.bytes 9) = path.flags ∧
    force res.length m' = .ok (some (some res), m'') ∧ Frame p m m' ∧ Frame p m m'' ∧
    eager rest res.length res = .ok (some res)

theorem Memory.Free.valid (free : m.Free p) : Valid p := ⟨free.width, free.notNull⟩

theorem Shows.converts {f : LazyFuture} (shows_ : Shows p m f) (valid : Valid p) (sound : f.Sound)
    (unset : f.passed = none) (rest : ℕ → UInt8) (again : ℕ) :
    ∃ g : LazyFuture, Shows p ((futureConvert p rest)^[again] m) g ∧
      Frame p m ((futureConvert p rest)^[again] m) ∧ g.Sound ∧ g.passed = none ∧
      g.awaited = f.awaited ∧ (f.hasChannel = true → g.hasChannel = true) := by
  induction again generalizing m f with
  | zero => exact ⟨f, shows_, .refl, sound, unset, rfl, id⟩
  | succ again ih =>
    obtain ⟨next, frame⟩ := shows_.convert valid rest
    obtain ⟨g, last, frame', sound', unset', awaited, channel⟩ :=
      ih next (sound.convert unset) (LazyFuture.convert_passed.trans unset)
    exact ⟨g, last, frame.trans frame', sound', unset', awaited.trans LazyFuture.convert_awaited,
      fun _ => channel LazyFuture.convert_hasChannel⟩

theorem Path.prepare_shows (path : Path) (valid : Valid p) :
    ∃ f : LazyFuture, Shows p (path.prepare p rest m) f ∧ Frame p m (path.prepare p rest m) ∧
      f.Sound ∧ f.passed = none ∧ f.awaited = true ∧
      (f.hasChannel = true ↔ path ≠ .here) := by
  have sound : ({ LazyFuture.alloc 0 with awaited := true } : LazyFuture).Sound := .fresh
  have soundHeap : ({ LazyFuture.heap 0 with awaited := true } : LazyFuture).Sound := .converted
  obtain ⟨shows_, frame⟩ := @alloc_shows p m 0
  cases path with
  | here => exact ⟨_, shows_, frame, sound, rfl, rfl, by simp [LazyFuture.alloc]⟩
  | stolen again =>
    obtain ⟨next, frame'⟩ := shows_.convert valid rest
    obtain ⟨g, last, frame'', sound', unset, awaited, channel⟩ :=
      next.converts valid (sound.convert rfl) rfl rest again
    refine ⟨g, last, frame.trans (frame'.trans frame''), sound', unset, awaited, ?_⟩
    exact ⟨fun _ => by simp, fun _ => channel LazyFuture.convert_hasChannel⟩
  | fragment again =>
    obtain ⟨first, frame'⟩ := @split_shows p m rest 0 valid
    obtain ⟨g, last, frame'', sound', unset, awaited, channel⟩ :=
      first.converts valid soundHeap rfl rest again
    refine ⟨g, last, frame'.trans frame'', sound', unset, awaited, ?_⟩
    exact ⟨fun _ => by simp, fun _ => channel rfl⟩

theorem eager_returns (small : value.length ≤ 8) : eager rest value.length value =
    .ok (some value) := by
  have width : (UInt32.ofNat value.length).toNat = value.length := by
    rw [UInt32.toNat_ofNat']
    omega
  have holds : Holds (channelAlloc (UInt32.ofNat value.length) 0 .spsc rest) 0 0 [] :=
    channelAlloc_holds (by rw [width, UInt32.toNat_zero]; omega) (by decide)
  have sends : SendsAs _ 0 0 [] value (channelSend _ value) :=
    channelSend_refines holds (Nat.le_of_eq width.symm)
  rw [SendsAs, if_pos (by simp)] at sends
  obtain ⟨c', sent, holds', -⟩ := sends
  obtain ⟨c'', received, -⟩ :=
    @channelReceive_refines c' 0 0 [value] value.length holds' (by simp)
  simp only [eager, sent, ok_bind, received]
  rfl

/-- The forms of a future that was set and not read yet: `FUTURE_SET` writes `set` only where
there is no channel. -/
theorem flags_of_set {g : LazyFuture} (sound : g.Sound) (passed : g.passed = some value)
    (fresh : g.result = none) : g.set = !g.hasChannel := by
  cases sound with
  | stored | sent => rfl
  | fresh | converted => cases passed
  | read | delivered => cases fresh

theorem runs_of_small (path : Path) (free : m.Free p) (small : value.length ≤ 8) :
    Runs path m p rest value := by
  have valid := free.valid
  obtain ⟨f, shows_, frame, sound, unset, awaited, channel⟩ := path.prepare_shows (m := m) valid
  have fresh : f.result = none := by
    cases sound with
    | fresh | converted => rfl
    | stored | read | sent | delivered => cases unset
  obtain ⟨m', g, ran, wrote, shows', frame'⟩ := shows_.write valid sound unset small
  obtain ⟨sound', passed, channel', -, result, awaited', -⟩ :=
    (sound.write unset value).value wrote
  have flags := flags_of_set sound' passed (result.trans fresh)
  obtain ⟨m'', h, forced, -, -, -, frame''⟩ :=
    shows'.force_set valid sound' (awaited'.trans awaited) (result.trans fresh) passed
  refine ⟨m', m'', (shows_.force_unset sound unset).1, ran, ?_, forced, frame.trans frame',
    frame.trans (frame'.trans frame''), eager_returns small⟩
  rw [shows'.flag, shows'.done, flags, channel']
  cases path with
  | here =>
    have none : f.hasChannel = false := by simpa using channel.not.mpr (by simp)
    rw [none]
    rfl
  | stolen | fragment =>
    rw [channel.mpr (by simp)]
    rfl

/-- A larger result is written over `has_channel`. -/
theorem large_result_clobbers (large : 8 < value.length)
    (ran : futureSet value (futureAlloc m) = .ok m') : m'.bytes 8 = value[8] := by
  have flag : (futureAlloc m).hasChannel = false := by
    simp [futureAlloc, Memory.hasChannel, Memory.poke, Bytes.poke]
  simp only [futureSet, flag, Bool.not_false, if_true] at ran
  cases ran
  have inside := @Bytes.poke_inside _ value (futureAlloc m).bytes 0 8 large
  rw [poke_outside (by simp)]
  rwa [Nat.zero_add] at inside

/-- How a task is run makes no difference if and only if its result has at most eight
bytes. -/
theorem result_size_irrelevant (size : ℕ) :
    (∀ path m p rest res, m.Free p → res.length = size → Runs path m p rest res) ↔ size ≤ 8 := by
  constructor
  · intro runs
    by_contra large
    have free : (⟨fun _ => 0, fun _ => none⟩ : Memory).Free [1, 0, 0, 0, 0, 0, 0, 0] :=
      ⟨rfl, by decide, rfl⟩
    obtain ⟨m', -, -, ran, flags, -⟩ :=
      runs .here _ _ (fun _ => 0) (List.replicate size 1) free (by simp)
    have clobbered := large_result_clobbers (by rw [List.length_replicate]; omega) ran
    rw [List.getElem_replicate] at clobbered
    have kept : m'.bytes 8 = 0 := congrArg Prod.fst flags
    rw [clobbered] at kept
    exact absurd kept (by decide)
  · intro small path m p rest res free length
    exact runs_of_small path free (by omega)

/-- Some memory without channels, and an address. -/
def blank : Memory := ⟨fun _ => 0, fun _ => none⟩

def somewhere : Pointer := [1, 0, 0, 0, 0, 0, 0, 0]

/-- Eight bytes, sent through the channel of a stolen task's future. -/
theorem result_size_irrelevant_eight :
    blank.Free somewhere ∧
      Runs (.stolen 1) blank somewhere (fun _ => 0) [1, 2, 3, 4, 5, 6, 7, 8] :=
  have free : blank.Free somewhere := ⟨rfl, by decide, rfl⟩
  ⟨free, (result_size_irrelevant 8).mpr le_rfl (.stolen 1) blank somewhere _ _ free rfl⟩

/-- A result of nine bytes.  Run where it was created, the task writes over `has_channel`,
and `READY` follows the first bytes of the result as a pointer.  Run by a thief, it fails
an assertion of the channel.  Only the part of a loop, and an eager future, return it. -/
theorem nine_bytes_corrupt :
    (futureSet (List.replicate 9 1) (Path.here.prepare somewhere (fun _ => 0) blank) >>= force 9) =
        .error (.fault .wildPointer) ∧
    futureSet (List.replicate 9 1) ((Path.stolen 0).prepare somewhere (fun _ => 0) blank) =
        .error (.fault (.channel .itemsize)) ∧
    (futureSet (List.replicate 9 1) ((Path.fragment 0).prepare somewhere (fun _ => 0) blank) >>=
        force 9).toOption.map Prod.fst = some (some (some (List.replicate 9 1))) ∧
    eager (fun _ => 0) 9 (List.replicate 9 1) = .ok (some (List.replicate 9 1)) :=
  ⟨error_of_failed (by decide), error_of_failed (by decide), by decide, by decide⟩

end Tasking.FutureBytes
