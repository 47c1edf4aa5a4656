import Tasking.Channel

/-!
The channel cache (`CHANNEL_CACHE`): `channel_free` keeps channels for the next
`channel_alloc` of the same type, which returns them as they are.

A client names channels by the order in which it allocated them.  It owns what it
has not freed, so a channel is moved between the client and the cache as a whole.
`queueCall` is what the calls are for, a collection of bounded queues that can be
closed; it is undefined where a call is not legal.  With and without the cache the
calls answer as the queues do, provided that channels are open and empty when they
go into the cache (`apiCalls_refines`).
-/
namespace Tasking.ChannelCache
open Channels Fallible

/-! ## The cache -/

/-- `struct channel_cache`; the channel cached last comes first.  What stands for a channel
is left open: the channel itself, or its address where it matters who owns it. -/
structure Cache (κ : Type) where
  chanSize : UInt32
  chanN : UInt32
  chanImpl : Impl
  cache : List κ
  deriving DecidableEq, Repr

section FreeLists

variable {κ : Type}

/-- The free list is for channels of this type. -/
def Cache.fits (p : Cache κ) (size n : UInt32) (impl : Impl) : Bool :=
  size == p.chanSize && n == p.chanN && impl == p.chanImpl

/-- `channel_cache_alloc`; `memory` says whether `malloc` returns a node. -/
def channelCacheAlloc (size n : UInt32) (impl : Impl) (memory : Bool) (caches : List (Cache κ)) :
    Bool × List (Cache κ) :=
  -- Avoid multiple free lists for the exact same type of channel
  if caches.any (·.fits size n impl) then (false, caches)
  else if !memory then (false, caches)
  else (true, ⟨size, n, impl, []⟩ :: caches)

/-- The loop of `channel_alloc`: take a channel from the first list that fits. -/
def takeCached (size n : UInt32) (impl : Impl) : List (Cache κ) → Option (κ × List (Cache κ))
  | [] => none
  | p :: rest =>
    if p.fits size n impl then
      match p.cache with
      | chan :: others => some (chan, { p with cache := others } :: rest)
      | [] => none
    else do
      let (chan, rest) ← takeCached size n impl rest
      return (chan, p :: rest)

/-- The loop of `channel_free`: keep the channel in the first list that fits. -/
def storeCached (capacity : ℕ) (chan : Channel) (entry : κ) :
    List (Cache κ) → Option (List (Cache κ))
  | [] => none
  | p :: rest =>
    if p.fits chan.itemsize (chan.size - 1) chan.impl then
      if p.cache.length < capacity then some ({ p with cache := entry :: p.cache } :: rest)
      else none
    else do
      let rest ← storeCached capacity chan entry rest
      return p :: rest

variable {size n : UInt32} {impl : Impl} {caches caches' : List (Cache κ)} {entry : κ}

theorem Cache.fits_iff {p : Cache κ} : p.fits size n impl = true ↔
    size = p.chanSize ∧ n = p.chanN ∧ impl = p.chanImpl := by
  simp [Cache.fits, and_assoc]

theorem takeCached_eq_some (taken : takeCached size n impl caches = some (entry, caches')) :
    ∃ before p others after, caches = before ++ p :: after ∧ p.fits size n impl = true ∧
      p.cache = entry :: others ∧ caches' = before ++ { p with cache := others } :: after := by
  induction caches generalizing caches' with
  | nil => cases taken
  | cons p rest ih =>
    simp only [takeCached] at taken
    split at taken
    · next fits =>
      split at taken
      · next b others cached =>
        cases taken
        exact ⟨[], p, others, rest, rfl, fits, cached, rfl⟩
      · cases taken
    · simp only [bind, Option.bind_eq_some_iff] at taken
      obtain ⟨⟨b, rest'⟩, found, same⟩ := taken
      obtain ⟨rfl, rfl⟩ : b = entry ∧ p :: rest' = caches' := by simpa using same
      obtain ⟨before, q, others, after, rfl, fits, cached, rfl⟩ := ih found
      exact ⟨p :: before, q, others, after, rfl, fits, cached, rfl⟩

theorem storeCached_eq_some {capacity : ℕ} {c : Channel}
    (stored : storeCached capacity c entry caches = some caches') :
    ∃ before p after, caches = before ++ p :: after ∧
      p.fits c.itemsize (c.size - 1) c.impl = true ∧ p.cache.length < capacity ∧
      caches' = before ++ { p with cache := entry :: p.cache } :: after := by
  induction caches generalizing caches' with
  | nil => cases stored
  | cons p rest ih =>
    simp only [storeCached] at stored
    split at stored
    · next fits =>
      split at stored
      · next room =>
        cases stored
        exact ⟨[], p, rest, rfl, fits, room, rfl⟩
      · cases stored
    · simp only [bind, Option.bind_eq_some_iff] at stored
      obtain ⟨rest', found, same⟩ := stored
      obtain rfl : p :: rest' = caches' := by simpa using same
      obtain ⟨before, q, after, rfl, fits, room, rfl⟩ := ih found
      exact ⟨p :: before, q, after, rfl, fits, room, rfl⟩

/-- The channel freed last is the next one allocated, as it is: `channel_alloc` resets nothing
in a channel from the cache. -/
theorem take_store {capacity : ℕ} {c : Channel}
    (stored : storeCached capacity c entry caches = some caches') :
    takeCached c.itemsize (c.size - 1) c.impl caches' = some (entry, caches) := by
  induction caches generalizing caches' with
  | nil => cases stored
  | cons p rest ih =>
    simp only [storeCached] at stored
    split at stored
    · next fits =>
      split at stored
      · cases stored
        have same : ({ p with cache := entry :: p.cache } : Cache κ).fits c.itemsize (c.size - 1)
            c.impl = true := fits
        simp [takeCached, same]
      · cases stored
    · next other =>
      simp only [bind, Option.bind_eq_some_iff] at stored
      obtain ⟨rest', found, same⟩ := stored
      obtain rfl : p :: rest' = caches' := by simpa using same
      simp [takeCached, other, ih found]

end FreeLists

/-- `channel_alloc`; there is a cache if `CHANNEL_CACHE` is defined. -/
def channelAllocCached (capacity : Option ℕ) (size n : UInt32) (impl : Impl) (memory : ℕ → UInt8)
    (caches : List (Cache Channel)) : Channels.Checked (Channel × List (Cache Channel)) :=
  match capacity with
  | none => return (channelAlloc size n impl memory, caches)
  | some _ =>
    match takeCached size n impl caches with
    | some (chan, caches) => do
      check (isEmpty chan) .cachedEmpty
      return (chan, caches)
    | none =>
      return (channelAlloc size n impl memory, (channelCacheAlloc size n impl true caches).2)

/-- `channel_free` would keep the channel. -/
def keeps (capacity : Option ℕ) (chan : Channel) (caches : List (Cache Channel)) : Bool :=
  capacity.any fun capacity => (storeCached capacity chan chan caches).isSome

def channelFree (capacity : Option ℕ) (chan : Channel) (caches : List (Cache Channel)) :
    List (Cache Channel) :=
  match capacity with
  | none => caches
  | some capacity => (storeCached capacity chan chan caches).getD caches

/-! ## Calls by one thread -/

inductive ApiCall where
  | alloc (size n : UInt32) (impl : Impl)
  | free (h : ℕ)
  | send (h : ℕ) (data : Payload)
  | receive (h : ℕ) (size : ℕ)
  | close (h : ℕ)
  | open (h : ℕ)
  | peek (h : ℕ)
  | closed (h : ℕ)
  deriving DecidableEq, Repr

/-- What a call returns.  The new channel of an `alloc` is named by its position. -/
inductive ApiReply where
  | done
  | result (ok : Bool)
  | received (data : Option Payload)
  | number (k : ℕ)
  deriving DecidableEq, Repr

/-- The client's channels, `none` once freed, and the cache. -/
structure Store where
  live : List (Option Channel)
  caches : List (Cache Channel)
  deriving DecidableEq, Repr

def Store.chan (s : Store) (h : ℕ) : Option Channel := s.live[h]?.join

def Store.put (s : Store) (h : ℕ) (c : Channel) : Store := { s with live := s.live.set h (some c) }

/-- A call on a channel the client owns. -/
def Store.on (s : Store) (h : ℕ) (run : Channel → Channels.Checked (ApiReply × Channel)) :
    Channels.Checked (ApiReply × Store) :=
  match s.chan h with
  | none => .error .disabled
  | some c => do
    let (reply, c) ← run c
    return (reply, s.put h c)

/-- One call.  `memory h` is what `malloc` finds in the buffer of the channel named `h`. -/
def apiCall (capacity : Option ℕ) (memory : ℕ → ℕ → UInt8) (s : Store) :
    ApiCall → Channels.Checked (ApiReply × Store)
  | .alloc size n impl => do
    let (c, caches) ← channelAllocCached capacity size n impl (memory s.live.length) s.caches
    return (.done, ⟨s.live ++ [some c], caches⟩)
  | .free h =>
    match s.chan h with
    | none => .error .disabled
    | some c => return (.done, ⟨s.live.set h none, channelFree capacity c s.caches⟩)
  | .send h data => s.on h fun c => do
    let (ok, c) ← channelSend c data
    return (.result ok, c)
  | .receive h size => s.on h fun c => do
    let (data, c) ← channelReceive c size
    return (.received data, c)
  | .close h => s.on h fun c => return (.result (channelClose c).1, (channelClose c).2)
  | .open h => s.on h fun c => return (.result (channelOpen c).1, (channelOpen c).2)
  | .peek h => s.on h fun c => return (.number (channelPeek c).toNat, c)
  | .closed h => s.on h fun c => return (.result (channelClosed c), c)

def apiCalls (capacity : Option ℕ) (memory : ℕ → ℕ → UInt8) (s : Store) :
    List ApiCall → Channels.Checked (List ApiReply × Store)
  | [] => return ([], s)
  | call :: calls => do
    let (reply, s) ← apiCall capacity memory s call
    let (replies, s) ← apiCalls capacity memory s calls
    return (reply :: replies, s)

/-! ## Queues -/

structure Queue where
  size : UInt32
  n : UInt32
  impl : Impl
  closed : Bool
  items : List Payload
  deriving DecidableEq, Repr

def Queue.new (size n : UInt32) (impl : Impl) : Queue := ⟨size, n, impl, false, []⟩

/-- Set the flag; the result says whether it changed. -/
def Queue.setClosed (q : Queue) (closed : Bool) : ApiReply × Queue :=
  (.result (q.closed != closed), { q with closed := closed })

/-- Payloads fit into an item, and no more is received than was sent. -/
def Queue.send (q : Queue) (data : Payload) : Option (ApiReply × Queue) :=
  if q.size.toNat < data.length then none
  else if q.items.length < max q.n.toNat 1 then
    some (.result true, { q with items := q.items ++ [data] })
  else some (.result false, q)

def Queue.receive (q : Queue) (size : ℕ) : Option (ApiReply × Queue) :=
  match q.items with
  | [] => some (.received none, q)
  | x :: rest =>
    if size ≤ x.length then some (.received (some (x.take size)), { q with items := rest })
      else none

abbrev Queues := List (Option Queue)

def Queues.on (qs : Queues) (h : ℕ) (run : Queue → Option (ApiReply × Queue)) :
    Option (ApiReply × Queues) := do
  let q ← qs[h]?.join
  let (reply, q) ← run q
  return (reply, qs.set h (some q))

def queueCall (qs : Queues) : ApiCall → Option (ApiReply × Queues)
  | .alloc size n impl => some (.done, qs ++ [some (Queue.new size n impl)])
  | .free h => do
    let _ ← qs[h]?.join
    return (.done, qs.set h none)
  | .send h data => Queues.on qs h (·.send data)
  | .receive h size => Queues.on qs h (·.receive size)
  | .close h => Queues.on qs h fun q => some (q.setClosed true)
  | .open h => Queues.on qs h fun q => some (q.setClosed false)
  | .peek h => Queues.on qs h fun q => some (.number q.items.length, q)
  | .closed h => Queues.on qs h fun q => some (.result q.closed, q)

def queueCalls (qs : Queues) : List ApiCall → Option (List ApiReply × Queues)
  | [] => some ([], qs)
  | call :: calls => do
    let (reply, qs) ← queueCall qs call
    let (replies, qs) ← queueCalls qs calls
    return (reply :: replies, qs)

/-! ## Which calls the cache hides -/

/-- The slots of a new ring and its bytes are counted in an `unsigned int`. -/
def Representable : ApiCall → Prop
  | .alloc size n _ => (n.toNat + 1) * size.toNat < 2 ^ 32 ∧ 2 * (n.toNat + 1) ≤ 2 ^ 32
  | _ => True

/-- A channel that goes into the cache is open and empty.  `channel_free` does not look, and the
next user finds the channel as it is. -/
def Tidy (capacity : Option ℕ) (s : Store) : ApiCall → Prop
  | .free h => ∀ c ∈ s.chan h, keeps capacity c s.caches = true →
      channelClosed c = false ∧ channelPeek c = 0
  | _ => True

instance (capacity : Option ℕ) (s : Store) : DecidablePred (Tidy capacity s)
  | .free h => inferInstanceAs (Decidable (∀ c ∈ s.chan h, keeps capacity c s.caches = true →
      channelClosed c = false ∧ channelPeek c = 0))
  | .alloc .. | .send .. | .receive .. | .close .. | .open .. | .peek .. | .closed .. =>
    isTrue trivial

/-- Every call of the sequence is tidy in the state it is made in. -/
def TidyCalls (capacity : Option ℕ) (memory : ℕ → ℕ → UInt8) (s : Store) : List ApiCall → Prop
  | [] => True
  | call :: calls => Tidy capacity s call ∧
      ∀ next ∈ (apiCall capacity memory s call).toOption, TidyCalls capacity memory next.2 calls

instance decidableTidyCalls (capacity : Option ℕ) (memory : ℕ → ℕ → UInt8) :
    (s : Store) → (calls : List ApiCall) → Decidable (TidyCalls capacity memory s calls)
  | _, [] => isTrue trivial
  | s, call :: calls =>
    have (next : ApiReply × Store) : Decidable (TidyCalls capacity memory next.2 calls) :=
      decidableTidyCalls capacity memory next.2 calls
    inferInstanceAs (Decidable (_ ∧ ∀ next ∈ (apiCall capacity memory s call).toOption, _))

/-! ## Channels as queues -/

structure Represents (c : Channel) (q : Queue) : Prop where
  impl : c.impl = q.impl
  itemsize : c.itemsize = q.size
  closed : c.closed = q.closed
  holds : ∃ first, Holds c q.n.toNat first q.items

section Operations

variable {c : Channel} {q q' : Queue} {reply : ApiReply}

theorem Represents.capacity (rep : Represents c q) : c.size - 1 = q.n := by
  obtain ⟨first, holds⟩ := rep.holds
  exact UInt32.toNat_inj.mp (channelCapacity_refines holds)

/-- The assertion in `channel_alloc`.  It compares `head` with `tail` also for an
unbuffered channel, whose `tail` stays zero. -/
theorem Represents.isEmpty (rep : Represents c q) : isEmpty c = decide (q.items = []) := by
  obtain ⟨first, holds⟩ := rep.holds
  rcases Nat.eq_zero_or_pos q.n.toNat with none | some
  · rw [Bool.eq_iff_iff, Channels.isEmpty, beq_iff_eq, decide_eq_true_iff, holds.unused none,
      ← UInt32.toNat_inj, holds.flag none, UInt32.toNat_zero, List.length_eq_zero_iff]
  · exact holds.empty some

theorem represents_new {size n : UInt32} {impl : Impl}
    (fits : Representable (.alloc size n impl)) {memory : ℕ → UInt8} :
    Represents (channelAlloc size n impl memory) (Queue.new size n impl) where
  impl := rfl
  itemsize := rfl
  closed := rfl
  holds := ⟨0, channelAlloc_holds fits.1 fits.2⟩

def Answers (run : Channels.Checked (ApiReply × Channel))
    (spec : Option (ApiReply × Queue)) : Prop :=
  ∀ reply q', spec = some (reply, q') → ∃ c', run = .ok (reply, c') ∧ Represents c' q'

theorem Represents.send (rep : Represents c q) {data : Payload} :
    Answers (do let (ok, c) ← channelSend c data; return (.result ok, c)) (q.send data) := by
  intro reply q' answered
  obtain ⟨first, holds⟩ := rep.holds
  rw [Queue.send] at answered
  split at answered
  · cases answered
  next sized =>
    rw [← rep.itemsize] at sized
    have sends := channelSend_refines holds (Nat.le_of_not_lt sized)
    rw [SendsAs] at sends
    split at answered
    · next room =>
      cases answered
      rw [if_pos room] at sends
      obtain ⟨c', sent, holds', impl, closed, itemsize⟩ := sends
      refine ⟨c', ?_, impl.trans rep.impl, itemsize.trans rep.itemsize, closed.trans rep.closed,
        first, holds'⟩
      simp only [sent, ok_bind]
      rfl
    · next full =>
      cases answered
      rw [if_neg full] at sends
      refine ⟨c, ?_, rep⟩
      simp only [sends, ok_bind]
      rfl

theorem Represents.receive (rep : Represents c q) {size : ℕ} :
    Answers (do let (data, c) ← channelReceive c size; return (.received data, c))
      (q.receive size) := by
  intro reply q' answered
  obtain ⟨first, holds⟩ := rep.holds
  rw [Queue.receive] at answered
  cases stored : q.items with
  | nil =>
    simp only [stored, Option.some.injEq, Prod.mk.injEq] at answered
    obtain ⟨rfl, rfl⟩ := answered
    rw [stored] at holds
    have receives := @channelReceive_refines c _ first [] size holds (by simp)
    refine ⟨c, ?_, rep⟩
    simp only [show channelReceive c size = .ok (none, c) from receives, ok_bind]
    rfl
  | cons x rest =>
    simp only [stored] at answered
    split at answered
    · next short =>
      cases answered
      rw [stored] at holds
      obtain ⟨c', received, holds', impl, closed, itemsize⟩ :=
        @channelReceive_refines c _ first _ size (holds.shorten short) (by simpa using short)
      refine ⟨c', ?_, impl.trans rep.impl, itemsize.trans rep.itemsize, closed.trans rep.closed,
        first + 1, holds'⟩
      simp only [received, ok_bind]
      rfl
    · cases answered

theorem Represents.setClosed (rep : Represents c q) (closed : Bool) :
    (c.setClosed closed).1 = (q.closed != closed) ∧
      Represents (c.setClosed closed).2 { q with closed := closed } := by
  obtain ⟨first, holds⟩ := rep.holds
  unfold Channel.setClosed channelClosed
  rw [rep.closed]
  by_cases same : q.closed = closed
  · rw [if_pos same]
    exact ⟨by simp [same], rep.impl, rep.itemsize, rep.closed.trans same, first, holds⟩
  · rw [if_neg same]
    exact ⟨by simp [same], rep.impl, rep.itemsize, rfl, first, { holds with }⟩

/-- The channels a client holds and the queues it knows them as. -/
structure Mirrors (live : List (Option Channel)) (qs : Queues) : Prop where
  length : live.length = qs.length
  each : ∀ h : ℕ, Option.Rel Represents live[h]?.join qs[h]?.join

section Lists

variable {live : List (Option Channel)} {qs : Queues}

theorem Mirrors.found (mirrors : Mirrors live qs) {h : ℕ} (known : qs[h]?.join = some q) :
    ∃ c, live[h]?.join = some c ∧ Represents c q := by
  have rel := mirrors.each h
  rw [known] at rel
  cases held : live[h]?.join with
  | none =>
    rw [held] at rel
    cases rel
  | some c =>
    rw [held] at rel
    cases rel with
    | some rep => exact ⟨c, rfl, rep⟩

theorem Mirrors.set (mirrors : Mirrors live qs) (h : ℕ) {new : Option Channel}
    {queue : Option Queue} (rel : Option.Rel Represents new queue) :
    Mirrors (live.set h new) (qs.set h queue) where
  length := by simpa using mirrors.length
  each k := by
    rw [List.getElem?_set, List.getElem?_set, mirrors.length]
    split
    · split
      · exact rel
      · exact .none
    · exact mirrors.each k

theorem Mirrors.concat (mirrors : Mirrors live qs) (rep : Represents c q) :
    Mirrors (live ++ [some c]) (qs ++ [some q]) where
  length := by simp [mirrors.length]
  each k := by
    rcases Nat.lt_trichotomy k live.length with old | last | beyond
    · rw [List.getElem?_append_left old, List.getElem?_append_left (mirrors.length ▸ old)]
      exact mirrors.each k
    · subst last
      have position := mirrors.length
      rw [List.getElem?_append_right le_rfl, List.getElem?_append_right (by omega), position,
        Nat.sub_self]
      exact .some rep
    · have far := mirrors.length
      rw [List.getElem?_eq_none (by simp; omega), List.getElem?_eq_none (by simp; omega)]
      exact .none

end Lists

theorem on_refines {s : Store} {qs qs' : Queues} (mirrors : Mirrors s.live qs) {h : ℕ}
    {run : Channel → Channels.Checked (ApiReply × Channel)}
    {spec : Queue → Option (ApiReply × Queue)}
    (answers : ∀ c q, Represents c q → Answers (run c) (spec q))
    (legal : Queues.on qs h spec = some (reply, qs')) :
    ∃ live', s.on h run = .ok (reply, ⟨live', s.caches⟩) ∧ Mirrors live' qs' := by
  simp only [Queues.on, bind, Option.bind_eq_some_iff] at legal
  obtain ⟨q, known, ⟨reply', q'⟩, answered, same⟩ := legal
  obtain ⟨rfl, rfl⟩ : reply' = reply ∧ qs.set h (some q') = qs' := by simpa using same
  obtain ⟨c, held, rep⟩ := mirrors.found known
  obtain ⟨c', ran, rep'⟩ := answers c q rep reply' q' answered
  refine ⟨s.live.set h (some c'), ?_, mirrors.set h (.some rep')⟩
  simp only [Store.on, Store.chan, held, ran, ok_bind]
  rfl

end Operations

/-! ## The cache keeps fresh channels -/

/-- What is cached is as it would be allocated. -/
def Clean (caches : List (Cache Channel)) : Prop :=
  ∀ p ∈ caches, ∀ c ∈ p.cache, Represents c (Queue.new p.chanSize p.chanN p.chanImpl)

section Caches

variable {size n : UInt32} {impl : Impl} {caches caches' : List (Cache Channel)} {c : Channel}

theorem Clean.replace {before after : List (Cache Channel)} {p : Cache Channel}
    (clean : Clean (before ++ p :: after)) {list : List Channel}
    (each : ∀ c ∈ list, Represents c (Queue.new p.chanSize p.chanN p.chanImpl)) :
    Clean (before ++ { p with cache := list } :: after) := by
  intro q known
  rcases List.mem_append.mp known with old | here
  · exact clean q (List.mem_append_left _ old)
  · rcases List.mem_cons.mp here with rfl | old
    · exact each
    · exact clean q (List.mem_append_right _ (List.mem_cons_of_mem p old))

theorem Clean.take (clean : Clean caches)
    (taken : takeCached size n impl caches = some (c, caches')) :
    Represents c (Queue.new size n impl) ∧ Clean caches' := by
  obtain ⟨before, p, others, after, rfl, fits, cached, rfl⟩ := takeCached_eq_some taken
  obtain ⟨rfl, rfl, rfl⟩ := Cache.fits_iff.mp fits
  have each := clean p (by simp)
  rw [cached, List.forall_mem_cons] at each
  exact ⟨each.1, clean.replace each.2⟩

theorem Clean.store (clean : Clean caches) {q : Queue} (rep : Represents c q)
    (isOpen : q.closed = false) (empty : q.items = []) {capacity : ℕ}
    (stored : storeCached capacity c c caches = some caches') : Clean caches' := by
  obtain ⟨before, p, after, rfl, fits, -, rfl⟩ := storeCached_eq_some stored
  obtain ⟨size, n, impl⟩ := Cache.fits_iff.mp fits
  obtain ⟨first, holds⟩ := rep.holds
  rw [rep.capacity] at n
  rw [empty, n] at holds
  exact clean.replace (List.forall_mem_cons.mpr
    ⟨⟨impl, size, rep.closed.trans isOpen, first, holds⟩, clean p (by simp)⟩)

theorem Clean.alloc (clean : Clean caches) :
    Clean (channelCacheAlloc size n impl true caches).2 := by
  unfold channelCacheAlloc
  split
  · exact clean
  · exact List.forall_mem_cons.mpr ⟨by simp, clean⟩

/-- `channel_alloc` gives a channel as new, from the cache or not. -/
theorem alloc_refines (clean : Clean caches) (fits : Representable (.alloc size n impl))
    {capacity : Option ℕ} {memory : ℕ → UInt8} :
    ∃ c caches', channelAllocCached capacity size n impl memory caches = .ok (c, caches') ∧
      Represents c (Queue.new size n impl) ∧ Clean caches' := by
  cases capacity with
  | none => exact ⟨_, _, rfl, represents_new fits, clean⟩
  | some capacity =>
    cases taken : takeCached size n impl caches with
    | none =>
      refine ⟨channelAlloc size n impl memory, (channelCacheAlloc size n impl true caches).2, ?_,
        represents_new fits, clean.alloc⟩
      simp only [channelAllocCached, taken]
      rfl
    | some found =>
      obtain ⟨c, caches'⟩ := found
      obtain ⟨rep, clean'⟩ := clean.take taken
      refine ⟨c, caches', ?_, rep, clean'⟩
      simp only [channelAllocCached, taken, check, rep.isEmpty, Queue.new, decide_true, if_true,
        ok_bind]
      rfl

/-- `channel_free` keeps the cache clean if what it keeps is open and empty. -/
theorem free_clean (clean : Clean caches) {q : Queue} (rep : Represents c q) {capacity : Option ℕ}
    (tidy : keeps capacity c caches = true → q.closed = false ∧ q.items = []) :
    Clean (channelFree capacity c caches) := by
  cases capacity with
  | none => exact clean
  | some capacity =>
    cases stored : storeCached capacity c c caches with
    | none => simpa [channelFree, stored] using clean
    | some caches' =>
      obtain ⟨isOpen, empty⟩ := tidy (by simp [keeps, stored])
      simpa [channelFree, stored] using clean.store rep isOpen empty stored

end Caches

/-! ## Whole runs -/

section Runs

variable {capacity : Option ℕ} {memory : ℕ → ℕ → UInt8} {s : Store} {qs qs' : Queues}

theorem apiCall_refines (mirrors : Mirrors s.live qs) (clean : Clean s.caches) {call : ApiCall}
    {reply : ApiReply} (legal : queueCall qs call = some (reply, qs'))
    (fits : Representable call) (tidy : Tidy capacity s call) :
    ∃ s', apiCall capacity memory s call = .ok (reply, s') ∧ Mirrors s'.live qs' ∧
      Clean s'.caches := by
  have onOne : ∀ {h : ℕ} {run : Channel → Channels.Checked (ApiReply × Channel)}
      {spec : Queue → Option (ApiReply × Queue)},
      (∀ c q, Represents c q → Answers (run c) (spec q)) →
      Queues.on qs h spec = some (reply, qs') →
      ∃ s', s.on h run = .ok (reply, s') ∧ Mirrors s'.live qs' ∧ Clean s'.caches := by
    intro h run spec answers legal
    obtain ⟨live', ran, mirrors'⟩ := on_refines mirrors answers legal
    exact ⟨_, ran, mirrors', clean⟩
  cases call with
  | alloc size n impl =>
    cases legal
    obtain ⟨c, caches', ran, rep, clean'⟩ := @alloc_refines size n impl _ clean fits capacity
      (memory s.live.length)
    refine ⟨⟨s.live ++ [some c], caches'⟩, ?_, mirrors.concat rep, clean'⟩
    simp only [apiCall, ran, ok_bind]
    rfl
  | free h =>
    simp only [queueCall, bind, Option.bind_eq_some_iff] at legal
    obtain ⟨q, known, same⟩ := legal
    obtain ⟨rfl, rfl⟩ : .done = reply ∧ qs.set h none = qs' := by simpa using same
    obtain ⟨c, held, rep⟩ := mirrors.found known
    refine ⟨⟨s.live.set h none, channelFree capacity c s.caches⟩, ?_, mirrors.set h .none, ?_⟩
    · simp only [apiCall, Store.chan, held]
      rfl
    · apply free_clean clean rep
      intro kept
      obtain ⟨isOpen, none⟩ := tidy c held kept
      obtain ⟨first, holds⟩ := rep.holds
      have count := channelPeek_refines holds
      rw [none] at count
      exact ⟨rep.closed.symm.trans isOpen, List.length_eq_zero_iff.mp count.symm⟩
  | send h data => exact onOne (fun c q rep => rep.send) legal
  | receive h size => exact onOne (fun c q rep => rep.receive) legal
  | close h =>
    refine onOne (fun c q rep => ?_) legal
    rintro _ _ ⟨⟩
    obtain ⟨result, rep'⟩ := rep.setClosed true
    exact ⟨_, by rw [channelClose_eq, result]; rfl, rep'⟩
  | «open» h =>
    refine onOne (fun c q rep => ?_) legal
    rintro _ _ ⟨⟩
    obtain ⟨result, rep'⟩ := rep.setClosed false
    exact ⟨_, by rw [channelOpen_eq, result]; rfl, rep'⟩
  | peek h =>
    refine onOne (fun c q rep => ?_) legal
    rintro _ _ ⟨⟩
    obtain ⟨first, holds⟩ := rep.holds
    exact ⟨c, by rw [channelPeek_refines holds]; rfl, rep⟩
  | closed h =>
    refine onOne (fun c q rep => ?_) legal
    rintro _ _ ⟨⟩
    exact ⟨c, by rw [channelClosed, rep.closed]; rfl, rep⟩

theorem apiCalls_refines {calls : List ApiCall} {replies : List ApiReply}
    (mirrors : Mirrors s.live qs) (clean : Clean s.caches)
    (legal : queueCalls qs calls = some (replies, qs'))
    (fits : ∀ call ∈ calls, Representable call) (tidy : TidyCalls capacity memory s calls) :
    ∃ s', apiCalls capacity memory s calls = .ok (replies, s') ∧ Mirrors s'.live qs' ∧
      Clean s'.caches := by
  induction calls generalizing s qs replies with
  | nil =>
    cases legal
    exact ⟨s, rfl, mirrors, clean⟩
  | cons call calls ih =>
    simp only [queueCalls, bind, Option.bind_eq_some_iff] at legal
    obtain ⟨⟨reply, middle⟩, one, ⟨later, final⟩, others, same⟩ := legal
    obtain ⟨rfl, rfl⟩ : reply :: later = replies ∧ final = qs' := by simpa using same
    obtain ⟨now, afterwards⟩ := tidy
    obtain ⟨s₁, called, mirrors₁, clean₁⟩ := @apiCall_refines capacity memory s qs middle mirrors
      clean call reply one (fits call List.mem_cons_self) now
    obtain ⟨s₂, calledRest, mirrors₂, clean₂⟩ :=
      ih mirrors₁ clean₁ others (fun call later => fits call (List.mem_cons_of_mem _ later))
        (afterwards (reply, s₁) (by simp [called, Except.toOption]))
    refine ⟨s₂, ?_, mirrors₂, clean₂⟩
    simp only [apiCalls, called, ok_bind, calledRest]
    rfl

/-- Without a cache nothing is asked of the calls. -/
theorem tidyCalls_uncached (memory : ℕ → ℕ → UInt8) (s : Store) (calls : List ApiCall) :
    TidyCalls none memory s calls := by
  induction calls generalizing s with
  | nil => trivial
  | cons call calls ih =>
    refine ⟨?_, fun next _ => ih next.2⟩
    cases call with
    | free h =>
      intro c _ kept
      simp [keeps] at kept
    | _ => trivial

/-- Freeing a channel into the cache and allocating one of its type gives a new
channel exactly if the old one was open and empty. -/
theorem realloc_iff {capacity : ℕ} {h : ℕ} {c : Channel} {q : Queue} (held : s.chan h = some c)
    (rep : Represents c q) (kept : keeps (some capacity) c s.caches = true) :
    (∃ s' c', apiCalls (some capacity) memory s [.free h, .alloc q.size q.n q.impl] =
        .ok ([.done, .done], s') ∧
      s'.live.getLast? = some (some c') ∧ channelClosed c' = false ∧ channelPeek c' = 0) ↔
      q.closed = false ∧ q.items = [] := by
  obtain ⟨caches', stored⟩ : ∃ caches', storeCached capacity c c s.caches = some caches' :=
    Option.isSome_iff_exists.mp (by simpa [keeps] using kept)
  obtain ⟨first, holds⟩ := rep.holds
  have count := channelPeek_refines holds
  have taken := take_store stored
  rw [rep.itemsize, rep.capacity, rep.impl] at taken
  have run : apiCalls (some capacity) memory s [.free h, .alloc q.size q.n q.impl] =
      if q.items = [] then .ok ([.done, .done], ⟨s.live.set h none ++ [some c], s.caches⟩)
      else .error (.fault .cachedEmpty) := by
    by_cases empty : q.items = []
    · simp [apiCalls, apiCall, held, channelFree, stored, channelAllocCached, taken, check,
        rep.isEmpty, empty, pure, Except.pure, bind, Except.bind]
    · simp [apiCalls, apiCall, held, channelFree, stored, channelAllocCached, taken, check,
        rep.isEmpty, empty, pure, Except.pure, bind, Except.bind]
  constructor
  · rintro ⟨s', c', ran, last, isOpen, -⟩
    rw [run] at ran
    by_cases empty : q.items = []
    · rw [if_pos empty] at ran
      cases ran
      obtain rfl : c = c' := by simpa using last
      exact ⟨rep.closed.symm.trans isOpen, empty⟩
    · rw [if_neg empty] at ran
      cases ran
  · rintro ⟨isOpen, empty⟩
    refine ⟨_, c, run.trans (if_pos empty), by simp, rep.closed.trans isOpen, ?_⟩
    rw [empty] at count
    exact UInt32.toNat_inj.mp count

end Runs

/-- With a cache of any capacity, legal calls return what they return without it,
and the channels are the ones asked for, if channels are open and empty when they
go into the cache.  That is also needed: the next allocation of that type would
otherwise give a closed channel or stop at the assertion. -/
theorem cache_transparent (capacity : ℕ) (memory memory' : ℕ → ℕ → UInt8) (calls : List ApiCall)
    {replies : List ApiReply} {qs : Queues} (legal : queueCalls [] calls = some (replies, qs))
    (fits : ∀ call ∈ calls, Representable call)
    (tidy : TidyCalls (some capacity) memory ⟨[], []⟩ calls) :
    ∃ s s', apiCalls (some capacity) memory ⟨[], []⟩ calls = .ok (replies, s) ∧
      apiCalls none memory' ⟨[], []⟩ calls = .ok (replies, s') ∧
      Mirrors s.live qs ∧ Mirrors s'.live qs ∧
      ∀ h c q, s.chan h = some c → qs[h]?.join = some q → keeps (some capacity) c s.caches = true →
        ((∃ s₂ c', apiCalls (some capacity) memory s [.free h, .alloc q.size q.n q.impl] =
            .ok ([.done, .done], s₂) ∧
          s₂.live.getLast? = some (some c') ∧ channelClosed c' = false ∧ channelPeek c' = 0) ↔
          q.closed = false ∧ q.items = []) := by
  have empty : Mirrors (Store.mk [] []).live [] := ⟨rfl, by simp⟩
  have clean : Clean (Store.mk [] []).caches := fun p known => absurd known List.not_mem_nil
  obtain ⟨s, ran, mirrors, -⟩ := apiCalls_refines empty clean legal fits tidy
  obtain ⟨s', ran', mirrors', -⟩ :=
    apiCalls_refines empty clean legal fits (tidyCalls_uncached memory' _ _)
  refine ⟨s, s', ran, ran', mirrors, mirrors', ?_⟩
  intro h c q held known kept
  obtain ⟨c', held', rep⟩ := mirrors.found known
  obtain rfl : c = c' := Option.some.inj (held.symm.trans held')
  exact realloc_iff held rep kept

/-- A channel is used, freed and allocated again. -/
def recycles : List ApiCall :=
  [.alloc 4 2 .spsc, .send 0 [1, 2], .receive 0 2, .free 0, .alloc 4 2 .spsc, .send 1 [3], .peek 1,
    .closed 1]

theorem cache_transparent_recycles :
    (∃ s, apiCalls (some 1) (fun _ _ => 0) ⟨[], []⟩ recycles = .ok ([.done, .result true,
      .received (some [1, 2]), .done, .done, .result true, .number 1, .result false], s)) ∧
    ∃ s, apiCalls none (fun _ _ => 0) ⟨[], []⟩ recycles = .ok ([.done, .result true,
      .received (some [1, 2]), .done, .done, .result true, .number 1, .result false], s) := by
  obtain ⟨s, s', cached, uncached, -⟩ := cache_transparent 1 (fun _ _ => 0)
    (fun _ _ => 0) recycles rfl (by simp [recycles, Representable]) (by decide)
  exact ⟨⟨s, cached⟩, ⟨s', uncached⟩⟩

/-- A channel that was closed before it was freed comes back closed, and one that
was freed with an item in it stops the next allocation. -/
theorem recycled_channel_is_used :
    (∃ s s', apiCalls none (fun _ _ => 0) ⟨[], []⟩
        [.alloc 4 1 .spsc, .close 0, .free 0, .alloc 4 1 .spsc, .closed 1] =
          .ok ([.done, .result true, .done, .done, .result false], s) ∧
      apiCalls (some 1) (fun _ _ => 0) ⟨[], []⟩
        [.alloc 4 1 .spsc, .close 0, .free 0, .alloc 4 1 .spsc, .closed 1] =
          .ok ([.done, .result true, .done, .done, .result true], s')) ∧
    (∃ s, apiCalls none (fun _ _ => 0) ⟨[], []⟩
        [.alloc 4 1 .spsc, .send 0 [1], .free 0, .alloc 4 1 .spsc] =
          .ok ([.done, .result true, .done, .done], s)) ∧
    apiCalls (some 1) (fun _ _ => 0) ⟨[], []⟩
        [.alloc 4 1 .spsc, .send 0 [1], .free 0, .alloc 4 1 .spsc] =
          .error (.fault .cachedEmpty) :=
  ⟨⟨_, _, rfl, rfl⟩, ⟨_, rfl⟩, rfl⟩

end Tasking.ChannelCache
