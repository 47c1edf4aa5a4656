import Tasking.ChannelCache
import Tasking.Transition

/-!
Who owns a channel when there is a cache.  Channels have addresses here: `malloc` may
return any address that is free, so an address that was given back can come up again,
and a channel that is reached through a stale pointer is noticed (`dangling`).  The free
lists and the loops over them are those of `ChannelCache`, with addresses in them.

A thread holds the channels it has allocated and not freed (`handed`); the others that
exist are in the cache.  `Inv.step` says that every call keeps it so, and that the cache
has one free list for a type, holding channels of that type only.
-/
namespace Tasking.CacheOwnership
open Channels Fallible Transition Function
open ChannelCache (takeCached storeCached takeCached_eq_some storeCached_eq_some)

inductive CacheFault where
  /-- `assert(IS_EMPTY(chan))` for a channel taken from the cache. -/
  | notEmpty
  /-- `assert(channel_cache_len == 0)`. -/
  | cacheLen
  /-- A channel is used that was given back to the system. -/
  | dangling
  /-- An assertion of the channel operations. -/
  | client (which : ChannelFault)
  deriving DecidableEq, Repr

abbrev Checked (α : Type) := Fallible.Checked CacheFault α

/-- A free list holds the addresses of channels here. -/
abbrev Node := ChannelCache.Cache ℕ

/-- The channels that exist, the cache of the thread with its length, and, as a ghost,
what the thread was handed and has not freed. -/
structure State where
  heap : ℕ → Option Channel
  nodes : List Node
  cacheLen : UInt32
  handed : List ℕ

def State.init : State := ⟨fun _ => none, [], 0, []⟩

def State.load (s : State) (a : ℕ) : Checked Channel :=
  match s.heap a with
  | some c => .ok c
  | none => .error (.fault .dangling)

def State.store (s : State) (a : ℕ) (c : Channel) : State :=
  { s with heap := update s.heap a (some c) }

/-- `free(chan)`. -/
def State.release (s : State) (a : ℕ) : State := { s with heap := update s.heap a none }

/-! ## The functions of the source -/

/-- `channel_cache_alloc`.  An `impl` that is none of the three is `none`; `memory` says
whether `malloc` returns a node. -/
def channelCacheAlloc (size n : UInt32) (impl : Option Impl) (memory : Bool) (s : State) :
    Bool × State :=
  match impl with
  | none => (false, s)
  | some impl =>
    match ChannelCache.channelCacheAlloc size n impl memory s.nodes with
    | (true, nodes) => (true, { s with nodes := nodes, cacheLen := s.cacheLen + 1 })
    | (false, _) => (false, s)

/-- What `malloc` does in a call of `channel_alloc`: the channel's address, whether there
is a buffer and what it holds, and whether there is a node. -/
structure Mallocs where
  chan : Option ℕ
  buffer : Bool
  contents : ℕ → UInt8
  node : Bool

def channelAlloc (size n : UInt32) (impl : Option Impl) (m : Mallocs) (s : State) :
    Checked (Option ℕ × State) :=
  match impl with
  | none => return (none, s)
  | some impl =>
    match takeCached size n impl s.nodes with
    | some (a, nodes) => do
      let chan ← s.load a
      check (isEmpty chan) .notEmpty
      return (some a, { s with nodes := nodes, handed := a :: s.handed })
    | none =>
      match m.chan with
      | none => return (none, s)
      | some a => do
        await (s.heap a = none)
        if !m.buffer then return (none, s)
        else
          let s := s.store a (Channels.channelAlloc size n impl m.contents)
          -- In addition to allocating the channel, try to allocate a cache
          let s := (channelCacheAlloc size n impl m.node s).2
          return (some a, { s with handed := a :: s.handed })

def channelFree (capacity : ℕ) (chan : Option ℕ) (s : State) : Checked State :=
  match chan with
  | none => return s
  | some a => do
    let chan ← s.load a
    match storeCached capacity chan a s.nodes with
    | some nodes => return { s with nodes := nodes, handed := s.handed.erase a }
    | none => return { s.release a with handed := s.handed.erase a }

/-- The inner loop of `channel_cache_free`. -/
def freeChannels : List ℕ → State → Checked State
  | [], s => return s
  | a :: rest, s => do
    let _ ← s.load a
    freeChannels rest (s.release a)

/-- The outer loop of `channel_cache_free`. -/
def freeNodes : List Node → State → Checked State
  | [], s => return s
  | p :: rest, s => do
    let s ← freeChannels p.cache.reverse s
    freeNodes rest { s with cacheLen := s.cacheLen - 1 }

def channelCacheFree (s : State) : Checked State := do
  let s ← freeNodes s.nodes s
  check (s.cacheLen = 0) .cacheLen
  return { s with nodes := [] }

/-! ## Calls by one thread -/

/-- What a thread does with a channel it holds. -/
inductive Use where
  | call (call : Call)
  | close
  | open
  deriving DecidableEq, Repr

def Use.run (c : Channel) : Use → Channels.Checked Channel
  | .call which => do
    let (_, c) ← channelCall c which
    return c
  | .close => return (channelClose c).2
  | .open => return (channelOpen c).2

/-- An assertion that fails in a channel operation. -/
def ofChannel {α : Type} : Channels.Checked α → Checked α
  | .ok value => .ok value
  | .error .disabled => .error .disabled
  | .error (.fault which) => .error (.fault (.client which))

inductive Act where
  | cacheAlloc (size n : UInt32) (impl : Option Impl) (memory : Bool)
  | alloc (size n : UInt32) (impl : Option Impl) (m : Mallocs)
  | free (chan : Option ℕ)
  | cacheFree
  | use (a : ℕ) (use : Use)

/-- One call.  Only what the thread holds is used or freed. -/
def step (capacity : ℕ) (act : Act) (s : State) : Checked State :=
  match act with
  | .cacheAlloc size n impl memory => return (channelCacheAlloc size n impl memory s).2
  | .alloc size n impl m => do
    let (_, s) ← channelAlloc size n impl m s
    return s
  | .free chan => do
    await (∀ a ∈ chan, a ∈ s.handed)
    channelFree capacity chan s
  | .cacheFree => channelCacheFree s
  | .use a use => do
    await (a ∈ s.handed)
    let c ← s.load a
    let c ← ofChannel (use.run c)
    return s.store a c

def system (capacity : ℕ) : System State := System.ofMoves .init (step capacity)

/-! ## The invariant -/

def Node.key (p : Node) : UInt32 × UInt32 × Impl := (p.chanSize, p.chanN, p.chanImpl)

def cached (nodes : List Node) : List ℕ := nodes.flatMap fun p => p.cache

/-- The channel is of the type of the free list. -/
structure Node.Suits (p : Node) (c : Channel) : Prop where
  itemsize : c.itemsize = p.chanSize
  size : c.size - 1 = p.chanN
  impl : c.impl = p.chanImpl

structure Inv (capacity : ℕ) (s : State) : Prop where
  keys : (s.nodes.map Node.key).Nodup
  len : s.cacheLen = UInt32.ofNat s.nodes.length
  room : ∀ p ∈ s.nodes, p.cache.length ≤ capacity
  typed : ∀ p ∈ s.nodes, ∀ a ∈ p.cache, ∃ c, s.heap a = some c ∧ p.Suits c
  once : (s.handed ++ cached s.nodes).Nodup
  /-- What exists is in one of the two places, and what is there exists. -/
  known : ∀ a, (s.heap a).isSome ↔ a ∈ s.handed ++ cached s.nodes

variable {capacity : ℕ} {s s' : State} {size n : UInt32} {impl : Impl} {nodes nodes' : List Node}
  {a : ℕ} {c : Channel} {heap : ℕ → Option Channel}

theorem Node.suits_iff {p : Node} : p.fits c.itemsize (c.size - 1) c.impl = true ↔ p.Suits c := by
  rw [ChannelCache.Cache.fits_iff]
  exact ⟨fun fits => ⟨fits.1, fits.2.1, fits.2.2⟩,
    fun suits => ⟨suits.itemsize, suits.size, suits.impl⟩⟩

theorem inv_init : Inv capacity .init where
  keys := .nil
  len := rfl
  room := by simp [State.init]
  typed := by simp [State.init]
  once := .nil
  known := by simp [State.init, cached]

/-! ### One call -/

/-- One free list changes, and what leaves it goes to the thread, or the other way. -/
theorem Inv.exchange (inv : Inv capacity s) {before after : List Node} {p : Node}
    {list handed : List ℕ} (here : s.nodes = before ++ p :: after) (short : list.length ≤ capacity)
    (typed : ∀ a ∈ list, ∃ c, s.heap a = some c ∧ p.Suits c)
    (same : (handed ++ (cached before ++ (list ++ cached after))).Perm
      (s.handed ++ (cached before ++ (p.cache ++ cached after)))) :
    Inv capacity { s with
      nodes := before ++ { p with cache := list } :: after, handed := handed } := by
  have all : cached s.nodes = cached before ++ (p.cache ++ cached after) := by
    simp [here, cached]
  have all' : cached (before ++ { p with cache := list } :: after) =
      cached before ++ (list ++ cached after) := by
    simp [cached]
  have others (q : Node) (member : q ∈ before ++ { p with cache := list } :: after) :
      q ∈ s.nodes ∨ q = { p with cache := list } := by
    rw [here]
    simp only [List.mem_append, List.mem_cons] at member ⊢
    tauto
  refine ⟨?_, ?_, ?_, ?_, ?_, ?_⟩
  · have keys := inv.keys
    rw [here] at keys
    simpa [Node.key] using keys
  · have len := inv.len
    rw [here] at len
    simpa using len
  · intro q member
    rcases others q member with old | rfl
    · exact inv.room q old
    · exact short
  · intro q member
    rcases others q member with old | rfl
    · exact inv.typed q old
    · intro a inside
      obtain ⟨c, known, itemsize, size, impl⟩ := typed a inside
      exact ⟨c, known, itemsize, size, impl⟩
  · change (handed ++ cached _).Nodup
    rw [all', same.nodup_iff, ← all]
    exact inv.once
  · intro a
    change _ ↔ a ∈ handed ++ cached _
    rw [all', same.mem_iff, ← all]
    exact inv.known a

/-- `channel_alloc` takes a channel from the cache. -/
theorem Inv.take (inv : Inv capacity s)
    (taken : takeCached size n impl s.nodes = some (a, nodes')) :
    (s.heap a).isSome ∧ a ∉ s.handed ∧
      Inv capacity { s with nodes := nodes', handed := a :: s.handed } := by
  obtain ⟨before, p, others, after, here, -, first, rfl⟩ := takeCached_eq_some taken
  have inside : a ∈ cached s.nodes := by simp [here, cached, first]
  have member : p ∈ s.nodes := by simp [here]
  refine ⟨(inv.known a).mpr (List.mem_append_right _ inside), ?_, ?_⟩
  · intro held
    exact (List.nodup_append.mp inv.once).2.2 a held a inside rfl
  · refine inv.exchange here ?_ ?_ ?_
    · have := inv.room p member
      rw [first, List.length_cons] at this
      omega
    · intro b old
      exact inv.typed p member b (by rw [first]; exact List.mem_cons_of_mem a old)
    · rw [first, List.perm_iff_count]
      intro b
      simp only [List.cons_append, List.count_append, List.count_cons]
      omega

/-- `channel_free` keeps a channel in the cache. -/
theorem Inv.keep (inv : Inv capacity s) (held : a ∈ s.handed) (known : s.heap a = some c)
    (stored : storeCached capacity c a s.nodes = some nodes') :
    Inv capacity { s with nodes := nodes', handed := s.handed.erase a } := by
  obtain ⟨before, p, after, here, fits, room, rfl⟩ := storeCached_eq_some stored
  refine inv.exchange here room ?_ ?_
  · intro b inside
    rcases List.mem_cons.mp inside with rfl | old
    · exact ⟨c, known, Node.suits_iff.mp fits⟩
    · exact inv.typed p (by simp [here]) b old
  · rw [List.perm_iff_count]
    intro b
    have split := (List.perm_cons_erase held).count_eq b
    simp only [List.cons_append, List.count_append, List.count_cons] at split ⊢
    omega

/-- What is cached stays as it is when the heap changes somewhere else. -/
theorem Inv.typed_update (inv : Inv capacity s) (absent : a ∉ cached s.nodes)
    (content : Option Channel) : ∀ p ∈ s.nodes, ∀ b ∈ p.cache,
      ∃ c, update s.heap a content b = some c ∧ p.Suits c := by
  intro p member b inside
  have differ : b ≠ a := by
    rintro rfl
    exact absent (List.mem_flatMap.mpr ⟨p, member, inside⟩)
  obtain ⟨c, known, suits⟩ := inv.typed p member b inside
  exact ⟨c, (update_of_ne differ _ _).trans known, suits⟩

theorem Inv.apart (inv : Inv capacity s) (held : a ∈ s.handed) : a ∉ cached s.nodes :=
  fun inside => (List.nodup_append.mp inv.once).2.2 a held a inside rfl

/-- The heap changes at an address that is in neither place; one more channel may be
handed out. -/
theorem Inv.new (inv : Inv capacity s) (free : s.heap a = none) :
    Inv capacity { s.store a c with handed := a :: s.handed } := by
  have fresh : a ∉ s.handed ++ cached s.nodes := by
    rw [← inv.known a, free]
    simp
  refine ⟨inv.keys, inv.len, inv.room,
    inv.typed_update (fun inside => fresh (List.mem_append_right _ inside)) _,
    List.nodup_cons.mpr ⟨fresh, inv.once⟩, fun b => ?_⟩
  change (update s.heap a (some c) b).isSome ↔ b ∈ a :: (s.handed ++ cached s.nodes)
  by_cases same : b = a
  · subst same
    simp
  · rw [update_of_ne same, inv.known b, List.mem_cons]
    exact (or_iff_right same).symm

theorem Inv.addNode (inv : Inv capacity s) (absent : s.nodes.any (·.fits size n impl) = false) :
    Inv capacity { s with
      nodes := ⟨size, n, impl, []⟩ :: s.nodes, cacheLen := s.cacheLen + 1 } := by
  refine ⟨?_, ?_, List.forall_mem_cons.mpr ⟨Nat.zero_le _, inv.room⟩,
    List.forall_mem_cons.mpr ⟨by simp, inv.typed⟩, inv.once, inv.known⟩
  · rw [List.map_cons, List.nodup_cons]
    refine ⟨fun member => ?_, inv.keys⟩
    obtain ⟨p, known, same⟩ := List.mem_map.mp member
    simp only [Node.key, Prod.mk.injEq] at same
    exact List.any_eq_false.mp absent p known
      (ChannelCache.Cache.fits_iff.mpr ⟨same.1.symm, same.2.1.symm, same.2.2.symm⟩)
  · change s.cacheLen + 1 = _
    rw [inv.len, List.length_cons, UInt32.ofNat_add]
    rfl

/-- `channel_cache_alloc` adds a free list for a type that has none, or does nothing. -/
theorem channelCacheAlloc_cases (size n : UInt32) (impl : Option Impl) (memory : Bool) (s : State) :
    (channelCacheAlloc size n impl memory s).2 = s ∨
      ∃ type, s.nodes.any (·.fits size n type) = false ∧
        (channelCacheAlloc size n impl memory s).2 = { s with
          nodes := ⟨size, n, type, []⟩ :: s.nodes, cacheLen := s.cacheLen + 1 } := by
  cases impl with
  | none => exact .inl rfl
  | some impl =>
    simp only [channelCacheAlloc, ChannelCache.channelCacheAlloc]
    by_cases known : s.nodes.any (·.fits size n impl) = true
    · simp [known]
    · cases memory with
      | false => simp [known]
      | true => exact .inr ⟨impl, by simpa using known, by simp [known]⟩

theorem Inv.cacheAlloc (inv : Inv capacity s) {impl : Option Impl} {memory : Bool} :
    Inv capacity (channelCacheAlloc size n impl memory s).2 := by
  rcases channelCacheAlloc_cases size n impl memory s with same | ⟨type, absent, made⟩
  · rw [same]
    exact inv
  · rw [made]
    exact inv.addNode absent

/-- `channel_free` gives a channel back to the system. -/
theorem Inv.drop (inv : Inv capacity s) (held : a ∈ s.handed) :
    Inv capacity { s.release a with handed := s.handed.erase a } := by
  have absent := inv.apart held
  have once := (List.nodup_append.mp inv.once).1
  refine ⟨inv.keys, inv.len, inv.room, inv.typed_update absent _,
    inv.once.sublist (List.erase_sublist.append_right _), fun b => ?_⟩
  change (update s.heap a none b).isSome ↔ b ∈ s.handed.erase a ++ cached s.nodes
  by_cases same : b = a
  · subst same
    simp [once.not_mem_erase, absent]
  · rw [update_of_ne same, inv.known b, List.mem_append, List.mem_append,
      List.mem_erase_of_ne same]

/-- The heap without the channels of a list. -/
def without (heap : ℕ → Option Channel) (list : List ℕ) : ℕ → Option Channel :=
  fun b => if b ∈ list then none else heap b

theorem without_nil : without heap [] = heap := by
  funext b
  simp [without]

theorem without_append {first second : List ℕ} :
    without (without heap first) second = without heap (first ++ second) := by
  funext b
  simp only [without, List.mem_append]
  by_cases here : b ∈ first
  · simp [here]
  · simp [here]

theorem without_apart {list : List ℕ} (absent : a ∉ list) :
    without heap list a = heap a := if_neg absent

theorem freeChannels_eq {list : List ℕ} (once : list.Nodup)
    (exist : ∀ a ∈ list, (s.heap a).isSome) : freeChannels list s =
    .ok { s with heap := without s.heap list } := by
  induction list generalizing s with
  | nil =>
    rw [without_nil]
    rfl
  | cons a rest ih =>
    obtain ⟨new, once⟩ := List.nodup_cons.mp once
    obtain ⟨c, known⟩ := Option.isSome_iff_exists.mp (exist a List.mem_cons_self)
    have loaded : s.load a = .ok c := by simp [State.load, known]
    have released : (s.release a).heap = without s.heap [a] := by
      funext b
      by_cases same : b = a
      · simp [State.release, without, same]
      · simp [State.release, without, same]
    have left : ∀ b ∈ rest, ((s.release a).heap b).isSome := by
      intro b member
      have differ : b ∉ [a] := by
        rw [List.mem_singleton]
        rintro rfl
        exact new member
      rw [released, without_apart differ]
      exact exist b (List.mem_cons_of_mem a member)
    rw [freeChannels, loaded, ok_bind, ih once left, released, without_append]
    rfl

theorem sub_one_sub (x y : UInt32) : x - 1 - y = x - (y + 1) := by
  have := x.toNat_lt
  have := y.toNat_lt
  apply UInt32.toNat_inj.mp
  rw [UInt32.toNat_sub, UInt32.toNat_sub, UInt32.toNat_sub, UInt32.toNat_add, UInt32.toNat_one]
  omega

theorem freeNodes_eq (once : (cached nodes).Nodup) (exist : ∀ a ∈ cached nodes, (s.heap a).isSome) :
    freeNodes nodes s = .ok { s with
      heap := without s.heap (cached nodes),
      cacheLen := s.cacheLen - UInt32.ofNat nodes.length } := by
  induction nodes generalizing s with
  | nil =>
    have same : s.cacheLen - UInt32.ofNat 0 = s.cacheLen := UInt32.sub_zero _
    simp only [cached, List.flatMap_nil, without_nil, List.length_nil, same]
    rfl
  | cons p rest ih =>
    have split : cached (p :: rest) = p.cache ++ cached rest := rfl
    rw [split] at once exist
    obtain ⟨onceHere, onceRest, apart⟩ := List.nodup_append.mp once
    have freed := @freeChannels_eq s p.cache.reverse
        ((List.reverse_perm _).nodup_iff.mpr onceHere) fun a member =>
      exist a (List.mem_append_left _ (List.mem_reverse.mp member))
    have order : without s.heap p.cache.reverse = without s.heap p.cache := by
      funext b
      simp [without]
    have left : ∀ a ∈ cached rest, (without s.heap p.cache a).isSome := by
      intro a member
      rw [without_apart fun inside => apart a inside a member rfl]
      exact exist a (List.mem_append_right _ member)
    have lengths : s.cacheLen - 1 - UInt32.ofNat rest.length =
        s.cacheLen - UInt32.ofNat (p :: rest).length := by
      rw [List.length_cons, UInt32.ofNat_add, sub_one_sub]
      rfl
    rw [order] at freed
    rw [freeNodes, freed, ok_bind]
    refine (@ih ⟨without s.heap p.cache, s.nodes, s.cacheLen - 1, s.handed⟩ onceRest left).trans ?_
    rw [lengths, without_append, split]

/-- `channel_cache_free` frees what is in the cache, and nothing else. -/
theorem Inv.cacheFree (inv : Inv capacity s) :
    ∃ s', channelCacheFree s = .ok s' ∧ Inv capacity s' ∧ s'.handed = s.handed := by
  obtain ⟨onceHanded, onceCached, apart⟩ := List.nodup_append.mp inv.once
  have freed := @freeNodes_eq s s.nodes onceCached fun a member =>
    (inv.known a).mpr (List.mem_append_right _ member)
  have zero : s.cacheLen - UInt32.ofNat s.nodes.length = 0 := by
    rw [inv.len, UInt32.sub_self]
  refine ⟨⟨without s.heap (cached s.nodes), [], s.cacheLen - UInt32.ofNat s.nodes.length, s.handed⟩,
    ?_, ⟨.nil, zero, by simp, by simp, ?_, ?_⟩, rfl⟩
  · rw [channelCacheFree, freed, ok_bind, check, if_pos zero]
    rfl
  · simpa [cached] using onceHanded
  · intro a
    change (without s.heap (cached s.nodes) a).isSome ↔ a ∈ s.handed ++ []
    rw [List.append_nil]
    by_cases inside : a ∈ cached s.nodes
    · have absent : a ∉ s.handed := fun held => apart a held a inside rfl
      simp [without, inside, absent]
    · rw [without_apart inside, inv.known a, List.mem_append]
      exact or_iff_left inside

theorem Inv.use (inv : Inv capacity s) (held : a ∈ s.handed) : Inv capacity (s.store a c) := by
  refine ⟨inv.keys, inv.len, inv.room, inv.typed_update (inv.apart held) _, inv.once, fun b => ?_⟩
  change (update s.heap a (some c) b).isSome ↔ b ∈ s.handed ++ cached s.nodes
  by_cases same : b = a
  · subst same
    simp [held]
  · rw [update_of_ne same]
    exact inv.known b

/-- No assertion fails but those about the contents of a channel, which are for its users to
keep. -/
def Contents (which : CacheFault) : Prop := which ≠ .dangling ∧ which ≠ .cacheLen

theorem load_ensures {post : Channel → Prop} (known : s.heap a = some c) (holds : post c) :
    Ensures Contents (s.load a) post := by
  simp only [State.load, known]
  exact holds

theorem ofChannel_ensures {α : Type} {run : Channels.Checked α} :
    Ensures Contents (ofChannel run) fun _ => True := by
  cases run with
  | ok value => trivial
  | error stop =>
    cases stop with
    | disabled => trivial
    | fault which => simp [ofChannel, Contents]

/-- What `channel_alloc` returns was not in the thread's hands. -/
theorem Inv.alloc (inv : Inv capacity s) {impl : Option Impl} {m : Mallocs} :
    Ensures Contents (channelAlloc size n impl m s) fun result =>
      (∀ a ∈ result.1, a ∉ s.handed) ∧ Inv capacity result.2 := by
  unfold channelAlloc
  split
  · exact ⟨by simp, inv⟩
  · next impl =>
    split
    · next a nodes taken =>
      obtain ⟨exists_, absent, inv'⟩ := inv.take taken
      obtain ⟨c, known⟩ := Option.isSome_iff_exists.mp exists_
      rw [ensures_bind]
      refine load_ensures known ?_
      rw [ensures_bind, ensures_check]
      refine ⟨?_, fun _ => by simp [Contents]⟩
      intro _
      exact ⟨by simpa using absent, inv'⟩
    · split
      · exact ⟨by simp, inv⟩
      · next a _ =>
        rw [ensures_bind, ensures_await]
        intro free
        have absent : a ∉ s.handed := by
          intro held
          have := (inv.known a).mpr (List.mem_append_left _ held)
          rw [free] at this
          cases this
        split
        · exact ⟨by simp, inv⟩
        · refine ⟨by simpa using absent, ?_⟩
          dsimp only
          rcases channelCacheAlloc_cases size n (some impl) m.node
            (s.store a (Channels.channelAlloc size n impl m.contents)) with same | ⟨_, new, made⟩
          · rw [same]
            exact inv.new free
          · rw [made]
            exact (inv.new free).addNode new

/-- `channel_free` does not free what is in the cache. -/
theorem Inv.free (inv : Inv capacity s) (held : a ∈ s.handed) :
    ∃ s', channelFree capacity (some a) s = .ok s' ∧ Inv capacity s' ∧
      (s'.heap a = none → a ∉ cached s.nodes ∧ a ∉ cached s'.nodes) := by
  obtain ⟨c, known⟩ := Option.isSome_iff_exists.mp ((inv.known a).mpr (List.mem_append_left _ held))
  have loaded : s.load a = .ok c := by simp [State.load, known]
  simp only [channelFree, loaded, ok_bind]
  cases stored : storeCached capacity c a s.nodes with
  | some nodes =>
    refine ⟨_, rfl, inv.keep held known stored, ?_⟩
    intro gone
    rw [known] at gone
    cases gone
  | none =>
    exact ⟨_, rfl, inv.drop held, fun _ => ⟨inv.apart held, inv.apart held⟩⟩

theorem Inv.step (inv : Inv capacity s) (act : Act) :
    Ensures Contents (step capacity act s) (Inv capacity) := by
  cases act with
  | cacheAlloc size n impl memory => exact inv.cacheAlloc
  | alloc size n impl m =>
    simp only [CacheOwnership.step, ensures_bind]
    refine inv.alloc.mono ?_
    rintro ⟨chan, s'⟩ ⟨-, inv'⟩
    exact inv'
  | free chan =>
    simp only [CacheOwnership.step, ensures_bind, ensures_await]
    intro held
    cases chan with
    | none => exact inv
    | some a =>
      obtain ⟨s', freed, inv', -⟩ := inv.free (held a rfl)
      rw [freed]
      exact inv'
  | cacheFree =>
    obtain ⟨s', freed, inv', -⟩ := inv.cacheFree
    simp only [CacheOwnership.step, freed]
    exact inv'
  | use a use =>
    simp only [CacheOwnership.step, ensures_bind, ensures_await]
    intro held
    obtain ⟨c, known⟩ := Option.isSome_iff_exists.mp
      ((inv.known a).mpr (List.mem_append_left _ held))
    refine load_ensures known (ofChannel_ensures.mono ?_)
    intro c' _
    exact inv.use held

theorem reachable_inv (reached : (system capacity).Reachable s) : Inv capacity s := by
  refine reached.invariant ?_ ?_
  · rintro s rfl
    exact inv_init
  · rintro s s' - inv ⟨act, ran⟩
    exact (inv.step act).value ran

/-- The cache is in order, and no channel is in two places: whatever was called before,
`channel_alloc` does not return a channel that is in use, `channel_free` does not free one
that is in the cache, and nobody follows a stale pointer. -/
theorem cache_never_aliases (capacity : ℕ) (s : State) (reached : (system capacity).Reachable s) :
    (s.nodes.map Node.key).Nodup ∧
    s.cacheLen.toNat = s.nodes.length % 2 ^ 32 ∧
    (∀ p ∈ s.nodes, p.cache.length ≤ capacity ∧
      ∀ a ∈ p.cache, ∃ c, s.heap a = some c ∧ p.Suits c) ∧
    (cached s.nodes).Nodup ∧ (∀ a ∈ cached s.nodes, a ∉ s.handed) ∧
    (∀ size n impl m a s', channelAlloc size n impl m s = .ok (some a, s') → a ∉ s.handed) ∧
    (∀ a ∈ s.handed, ∃ s', channelFree capacity (some a) s = .ok s' ∧
      (s'.heap a = none → a ∉ cached s.nodes ∧ a ∉ cached s'.nodes)) ∧
    ∀ act which, step capacity act s = .error (.fault which) →
      which ≠ .dangling ∧ which ≠ .cacheLen := by
  have inv := reachable_inv reached
  obtain ⟨-, onceCached, apart⟩ := List.nodup_append.mp inv.once
  refine ⟨inv.keys, by rw [inv.len, UInt32.toNat_ofNat'],
    fun p member => ⟨inv.room p member, inv.typed p member⟩, onceCached,
    fun a inside held => apart a held a inside rfl, ?_, ?_, ?_⟩
  · intro size n impl m a s' ran
    exact (inv.alloc.value ran).1 a rfl
  · intro a held
    obtain ⟨s', freed, -, outside⟩ := inv.free held
    exact ⟨s', freed, outside⟩
  · intro act which failed
    exact (inv.step act).tolerates failed

/-- Two channels of one type are allocated, and the first is freed. -/
def recycling : List Act :=
  [.alloc 4 1 (some .spsc) ⟨some 10, true, fun _ => 0, true⟩,
    .alloc 4 1 (some .spsc) ⟨some 11, true, fun _ => 0, true⟩, .free (some 10)]

theorem cache_never_aliases_recycling :
    (System.follow (step 2) recycling .init).handed = [11] ∧
    cached (System.follow (step 2) recycling .init).nodes = [10] ∧
    (System.follow (step 2) recycling .init).cacheLen.toNat =
      (System.follow (step 2) recycling .init).nodes.length % 2 ^ 32 :=
  ⟨by decide, by decide, (cache_never_aliases 2 _ (System.follow_reachable recycling)).2.1⟩

/-- Free lists for the first `k` item sizes. -/
theorem many_lists {k : ℕ} (few : k ≤ 2 ^ 32) :
    ∃ s, (system capacity).Reachable s ∧ s.nodes.length = k ∧
      ∀ p ∈ s.nodes, p.chanSize.toNat < k := by
  induction k with
  | zero => exact ⟨.init, System.reachable_of_init rfl, rfl, by simp [State.init]⟩
  | succ k ih =>
    obtain ⟨s, reached, length, small⟩ := ih (by omega)
    have size : (UInt32.ofNat k).toNat = k := by
      rw [UInt32.toNat_ofNat']
      omega
    have new : s.nodes.any (·.fits (UInt32.ofNat k) 1 .spsc) = false := by
      rw [List.any_eq_false]
      intro p member fits
      have same := (ChannelCache.Cache.fits_iff.mp fits).1
      have := small p member
      rw [← same, size] at this
      omega
    have made : (channelCacheAlloc (UInt32.ofNat k) 1 (some .spsc) true s).2.nodes =
        ⟨UInt32.ofNat k, 1, .spsc, []⟩ :: s.nodes := by
      simp [channelCacheAlloc, ChannelCache.channelCacheAlloc, new]
    refine ⟨_, reached.tail ⟨.cacheAlloc (UInt32.ofNat k) 1 (some .spsc) true, rfl⟩, ?_, ?_⟩
    · rw [made, List.length_cons, length]
    · rw [made]
      intro p member
      rcases List.mem_cons.mp member with rfl | old
      · change (UInt32.ofNat k).toNat < k + 1
        omega
      · have := small p old
        omega

/-- A free list for every item size: `channel_cache_len`, an `unsigned int`, has started again
from 0 with all of them there. -/
theorem cache_length_wraps :
    ∃ s, (system 1).Reachable s ∧ s.nodes.length = 4294967296 ∧ s.cacheLen = 0 := by
  obtain ⟨s, reached, length, -⟩ := @many_lists 1 4294967296 le_rfl
  refine ⟨s, reached, length, ?_⟩
  rw [(reachable_inv reached).len, length]
  rfl

end Tasking.CacheOwnership
