import Mathlib.Data.List.Infix
import Mathlib.Logic.Function.Basic
import Tasking.Channel
import Tasking.Transition

/-!
The unbuffered channels of `channel_shm/channel.c` under concurrency: a single slot,
and `head`, which says whether it is taken.  MPMC locks `head_lock` on both sides, MPSC
on the side of the producers, SPSC nowhere.  Every read and write of `head` and every
copy is a step of its own; memory is sequentially consistent.

Where there is no lock on a side there is one thread, and the two sides exclude each
other by `head`: the slot is written while `head` is 0 and read while it is 1.
-/
namespace Tasking.UnbufferedProtocol
open Channels Fallible Transition Function

/-! ## The program -/

/-- The tests of `head`: before the lock, under it, and in the assertion. -/
inductive Test where
  | unlocked | locked | asserted
  deriving DecidableEq, Repr

inductive SendPc (α : Type) where
  | idle
  | test (test : Test) (v : α)
  | lock (v : α)
  | copy (v : α)
  | publish (v : α)
  | unlock (ok : Bool)
  | returned (ok : Bool)
  deriving DecidableEq, Repr

inductive RecvPc (α : Type) where
  | idle
  | test (test : Test)
  | lock
  | copy
  | publish (v : α)
  /-- Before the second assertion of `channel_recv_unbuffered_mpmc`. -/
  | cleared (v : α)
  | unlock (result : Option α)
  | returned (result : Option α)
  deriving DecidableEq, Repr

def SendPc.calling {α : Type} : SendPc α → Bool
  | .idle | .returned _ => false
  | _ => true

def RecvPc.calling {α : Type} : RecvPc α → Bool
  | .idle | .returned _ => false
  | _ => true

/-- A sending thread, and whether the slot was taken at some moment of the call. -/
structure Producer (α : Type) where
  pc : SendPc α
  sawFull : Bool

/-- A receiving thread, whether the slot was free at some moment of the call, and what
its calls have returned so far. -/
structure Consumer (α : Type) where
  pc : RecvPc α
  sawEmpty : Bool
  results : List α

/-- The channel; `sent`, and `log`, which says who took which item, are history. -/
structure Cell (ι κ α : Type) where
  slot : α
  head : ℕ
  headLock : Option (ι ⊕ κ)
  sent : List α
  log : List (κ × α)

structure State (ι κ α : Type) where
  cell : Cell ι κ α
  producers : ι → Producer α
  consumers : κ → Consumer α

variable {ι κ α : Type}

/-- The items that were taken, in the order in which `head` was cleared. -/
def Cell.received (c : Cell ι κ α) : List α := c.log.map Prod.snd

def Cell.taken [DecidableEq κ] (c : Cell ι κ α) (j : κ) : List α :=
  (c.log.filter fun entry => entry.1 = j).map Prod.snd

/-- What a call that ends here gives to its caller. -/
def RecvPc.result : RecvPc α → List α
  | .returned result => result.toList
  | _ => []

/-- Whether `channel_send` and `channel_receive` take the lock. -/
def sendLocks : Impl → Bool
  | .mpmc | .mpsc => true
  | .spsc => false

def recvLocks : Impl → Bool
  | .mpmc => true
  | .mpsc | .spsc => false

def State.sendGoto [DecidableEq ι] (s : State ι κ α) (i : ι) (pc : SendPc α) : State ι κ α :=
  { s with producers := update s.producers i { s.producers i with pc := pc } }

def State.recvGoto [DecidableEq κ] (s : State ι κ α) (j : κ) (pc : RecvPc α) : State ι κ α :=
  { s with consumers := update s.consumers j { s.consumers j with
      pc := pc, results := (s.consumers j).results ++ pc.result } }

/-- One access of the producer `i`, which begins a call with `start`. -/
def channelSendStep [DecidableEq ι] (impl : Impl) (i : ι) (start : Option α) (s : State ι κ α) :
    Channels.Checked (State ι κ α) :=
  match (s.producers i).pc, start with
  | .idle, some v | .returned _, some v =>
    return { s with producers := update s.producers i ⟨.test .unlocked v, false⟩ }
  | .test .unlocked v, none =>
    return s.sendGoto i (if s.cell.head = 1 then .returned false
      else if sendLocks impl then .lock v else .test .asserted v)
  | .lock v, none =>
    if s.cell.headLock.isNone then
      return { s.sendGoto i (.test .locked v) with
        cell := { s.cell with headLock := some (.inl i) } }
    else .error .disabled
  | .test .locked v, none =>
    return s.sendGoto i (if s.cell.head = 1 then .unlock false else .test .asserted v)
  | .test .asserted v, none => do
    check (s.cell.head = 0) .emptyUnbuf
    return s.sendGoto i (.copy v)
  | .copy v, none =>
    return { s.sendGoto i (.publish v) with cell := { s.cell with slot := v } }
  | .publish v, none =>
    return { s.sendGoto i (if sendLocks impl then .unlock true else .returned true) with
      cell := { s.cell with head := 1, sent := s.cell.sent ++ [v] } }
  | .unlock ok, none =>
    return { s.sendGoto i (.returned ok) with cell := { s.cell with headLock := none } }
  | _, _ => .error .disabled

/-- One access of the consumer `j`. -/
def channelRecvStep [DecidableEq κ] (impl : Impl) (j : κ) (start : Bool) (s : State ι κ α) :
    Channels.Checked (State ι κ α) :=
  match (s.consumers j).pc, start with
  | .idle, true | .returned _, true =>
    return { s with
      consumers := update s.consumers j
        ⟨.test .unlocked, false, (s.consumers j).results⟩ }
  | .test .unlocked, false =>
    return s.recvGoto j (if s.cell.head = 0 then .returned none
      else if recvLocks impl then .lock else .test .asserted)
  | .lock, false =>
    if s.cell.headLock.isNone then
      return { s.recvGoto j (.test .locked) with
        cell := { s.cell with headLock := some (.inr j) } }
    else .error .disabled
  | .test .locked, false =>
    return s.recvGoto j (if s.cell.head = 0 then .unlock none else .test .asserted)
  | .test .asserted, false => do
    check (s.cell.head = 1) .fullUnbuf
    return s.recvGoto j .copy
  | .copy, false => return s.recvGoto j (.publish s.cell.slot)
  | .publish v, false =>
    return { s.recvGoto j (if recvLocks impl then .cleared v else .returned (some v)) with
      cell := { s.cell with head := 0, log := s.cell.log ++ [(j, v)] } }
  | .cleared v, false => do
    check (s.cell.head = 0) .emptyUnbuf
    return s.recvGoto j (.unlock (some v))
  | .unlock result, false =>
    return { s.recvGoto j (.returned result) with cell := { s.cell with headLock := none } }
  | _, _ => .error .disabled

/-! ## Interleaving -/

/-- Every call in progress takes note of whether the slot is taken.  This is history: no step
depends on it. -/
def State.observe (s : State ι κ α) : State ι κ α where
  cell := s.cell
  producers i :=
    let p := s.producers i
    { p with sawFull := p.sawFull || p.pc.calling && s.cell.head == 1 }
  consumers j :=
    let p := s.consumers j
    { p with sawEmpty := p.sawEmpty || p.pc.calling && s.cell.head == 0 }

inductive Party (ι κ α : Type) where
  | producer (i : ι) (start : Option α)
  | consumer (j : κ) (start : Bool)

def move [DecidableEq ι] [DecidableEq κ] (impl : Impl) (party : Party ι κ α) (s : State ι κ α) :
    Channels.Checked (State ι κ α) := do
  let s ← match party with
    | .producer i start => channelSendStep impl i start s
    | .consumer j start => channelRecvStep impl j start s
  return s.observe

def initial (memory : α) : State ι κ α where
  cell := ⟨memory, 0, none, [], []⟩
  producers _ := ⟨.idle, false⟩
  consumers _ := ⟨.idle, false, []⟩

def system [DecidableEq ι] [DecidableEq κ] (impl : Impl) (memory : α) : System (State ι κ α) :=
  .ofMoves (initial memory) (move impl)

/-- MPSC has one consumer, and SPSC one thread on either side. -/
structure Fits (impl : Impl) (ι κ : Type) : Prop where
  producers : sendLocks impl = false → Subsingleton ι
  consumers : recvLocks impl = false → Subsingleton κ

/-! ## What each thread knows -/

/-- The slot is free and all items were received, or it has the last one. -/
def CellOk (c : Cell ι κ α) : Prop :=
  c.head = 0 ∧ c.sent = c.received ∨ c.head = 1 ∧ c.sent = c.received ++ [c.slot]

def SendOwns (impl : Impl) (c : Cell ι κ α) (i : ι) : Prop :=
  sendLocks impl = true → c.headLock = some (.inl i)

def RecvOwns (impl : Impl) (c : Cell ι κ α) (j : κ) : Prop :=
  recvLocks impl = true → c.headLock = some (.inr j)

def SendOk (impl : Impl) (c : Cell ι κ α) (i : ι) (saw : Bool) : SendPc α → Prop
  | .idle | .test .unlocked _ => True
  | .lock _ => sendLocks impl = true
  | .test .locked _ => sendLocks impl = true ∧ c.headLock = some (.inl i)
  | .test .asserted _ | .copy _ => SendOwns impl c i ∧ c.head = 0
  | .publish v => SendOwns impl c i ∧ c.head = 0 ∧ c.slot = v
  | .unlock ok =>
    sendLocks impl = true ∧ c.headLock = some (.inl i) ∧ (ok = false → saw = true)
  | .returned ok => ok = false → saw = true

def RecvOk (impl : Impl) (c : Cell ι κ α) (j : κ) (saw : Bool) : RecvPc α → Prop
  | .idle | .test .unlocked => True
  | .lock => recvLocks impl = true
  | .test .locked => recvLocks impl = true ∧ c.headLock = some (.inr j)
  | .test .asserted | .copy => RecvOwns impl c j ∧ c.head = 1
  | .publish v => RecvOwns impl c j ∧ c.head = 1 ∧ c.slot = v
  | .cleared _ => recvLocks impl = true ∧ c.headLock = some (.inr j) ∧ c.head = 0
  | .unlock result =>
    recvLocks impl = true ∧ c.headLock = some (.inr j) ∧ (result = none → saw = true)
  | .returned result => result = none → saw = true

structure Inv (impl : Impl) (s : State ι κ α) : Prop where
  cell : CellOk s.cell
  producers : ∀ i, SendOk impl s.cell i (s.producers i).sawFull (s.producers i).pc
  consumers : ∀ j, RecvOk impl s.cell j (s.consumers j).sawEmpty (s.consumers j).pc
  sawFull : ∀ i, (s.producers i).pc.calling = true → s.cell.head = 1 →
    (s.producers i).sawFull = true
  sawEmpty : ∀ j, (s.consumers j).pc.calling = true → s.cell.head = 0 →
    (s.consumers j).sawEmpty = true

section Known

variable {impl : Impl} {c c' : Cell ι κ α} {i : ι} {j : κ} {saw saw' : Bool} {pc : SendPc α}

/-- Another thread changes the channel: whoever has the lock still has it, and the slot
is left to the producer that found it free. -/
theorem SendOk.keep (ok : SendOk impl c i saw pc)
    (lock : sendLocks impl = true → c.headLock = some (.inl i) → c'.headLock = some (.inl i))
    (cell : SendOwns impl c i → c.head = 0 → c'.head = 0 ∧ c'.slot = c.slot) :
    SendOk impl c' i saw pc := by
  have owns : SendOwns impl c i → SendOwns impl c' i := fun own locks => lock locks (own locks)
  cases pc with
  | idle => trivial
  | lock v => exact ok
  | test test v =>
    cases test with
    | unlocked => trivial
    | locked => exact ⟨ok.1, lock ok.1 ok.2⟩
    | asserted => exact ⟨owns ok.1, (cell ok.1 ok.2).1⟩
  | copy v => exact ⟨owns ok.1, (cell ok.1 ok.2).1⟩
  | publish v =>
    obtain ⟨own, free, written⟩ := ok
    exact ⟨owns own, (cell own free).1, (cell own free).2.trans written⟩
  | unlock result => exact ⟨ok.1, lock ok.1 ok.2.1, ok.2.2⟩
  | returned result => exact ok

/-- The same for a consumer that found the slot taken. -/
theorem RecvOk.keep {pc : RecvPc α} (ok : RecvOk impl c j saw pc)
    (lock : recvLocks impl = true → c.headLock = some (.inr j) →
      c'.headLock = some (.inr j) ∧ c'.head = c.head)
    (cell : RecvOwns impl c j → c.head = 1 → c'.head = 1 ∧ c'.slot = c.slot) :
    RecvOk impl c' j saw pc := by
  have owns : RecvOwns impl c j → RecvOwns impl c' j := fun own locks => (lock locks (own locks)).1
  cases pc with
  | idle => trivial
  | lock => exact ok
  | test test =>
    cases test with
    | unlocked => trivial
    | locked => exact ⟨ok.1, (lock ok.1 ok.2).1⟩
    | asserted => exact ⟨owns ok.1, (cell ok.1 ok.2).1⟩
  | copy => exact ⟨owns ok.1, (cell ok.1 ok.2).1⟩
  | publish v =>
    obtain ⟨own, full, copied⟩ := ok
    exact ⟨owns own, (cell own full).1, (cell own full).2.trans copied⟩
  | cleared v =>
    obtain ⟨locks, held, free⟩ := ok
    exact ⟨locks, (lock locks held).1, (lock locks held).2.trans free⟩
  | unlock result => exact ⟨ok.1, (lock ok.1 ok.2.1).1, ok.2.2⟩
  | returned result => exact ok

/-- The lock, while another thread has it or nobody does. -/
theorem SendOk.relock (ok : SendOk impl c i saw pc) (other : c.headLock ≠ some (.inl i))
    {lock : Option (ι ⊕ κ)} :
    SendOk impl { c with headLock := lock } i saw pc :=
  ok.keep (fun _ held => absurd held other) (fun _ free => ⟨free, rfl⟩)

theorem RecvOk.relock {pc : RecvPc α} (ok : RecvOk impl c j saw pc)
    (other : c.headLock ≠ some (.inr j)) {lock : Option (ι ⊕ κ)} :
    RecvOk impl { c with headLock := lock } j saw pc :=
  ok.keep (fun _ held => absurd held other) (fun _ full => ⟨full, rfl⟩)

theorem SendOk.mono (ok : SendOk impl c i saw pc) (more : saw = true → saw' = true) :
    SendOk impl c i saw' pc := by
  cases pc with
  | test test v => cases test <;> exact ok
  | unlock result => exact ⟨ok.1, ok.2.1, fun failed => more (ok.2.2 failed)⟩
  | returned result => exact fun failed => more (ok failed)
  | _ => exact ok

theorem RecvOk.mono {pc : RecvPc α} (ok : RecvOk impl c j saw pc)
    (more : saw = true → saw' = true) : RecvOk impl c j saw' pc := by
  cases pc with
  | test test => cases test <;> exact ok
  | unlock result => exact ⟨ok.1, ok.2.1, fun failed => more (ok.2.2 failed)⟩
  | returned result => exact fun failed => more (ok failed)
  | _ => exact ok

/-- The history variables are brought up to date after every step. -/
theorem Inv.observed {s : State ι κ α} (cell : CellOk s.cell)
    (producers : ∀ i, SendOk impl s.cell i (s.producers i).sawFull (s.producers i).pc)
    (consumers : ∀ j, RecvOk impl s.cell j (s.consumers j).sawEmpty (s.consumers j).pc) :
    Inv impl s.observe where
  cell := cell
  producers i := (producers i).mono fun seen => by simp [State.observe, seen]
  consumers j := (consumers j).mono fun seen => by simp [State.observe, seen]
  sawFull i calling full := by simp_all [State.observe]
  sawEmpty j calling empty := by simp_all [State.observe]

theorem sendLocks_of_recvLocks (locks : recvLocks impl = true) : sendLocks impl = true := by
  cases impl with
  | mpmc => rfl
  | _ => cases locks

/-- The thread that has the lock of its side, or is alone on it. -/
theorem SendOwns.others (fits : Fits impl ι κ) (own : SendOwns impl c i) {k : ι} (differ : k ≠ i) :
    ¬ SendOwns impl c k := by
  intro other
  cases locks : sendLocks impl with
  | false => exact differ ((fits.producers locks).elim k i)
  | true =>
    have same := (other locks).symm.trans (own locks)
    exact differ (Sum.inl.inj (Option.some.inj same))

theorem RecvOwns.others (fits : Fits impl ι κ) (own : RecvOwns impl c j) {k : κ} (differ : k ≠ j) :
    ¬ RecvOwns impl c k := by
  intro other
  cases locks : recvLocks impl with
  | false => exact differ ((fits.consumers locks).elim k j)
  | true =>
    have same := (other locks).symm.trans (own locks)
    exact differ (Sum.inr.inj (Option.some.inj same))

theorem CellOk.empty (ok : CellOk c) (free : c.head ≠ 1) : c.head = 0 := by
  rcases ok with ⟨empty, -⟩ | ⟨full, -⟩
  · exact empty
  · exact absurd full free

theorem CellOk.full (ok : CellOk c) (taken : c.head ≠ 0) : c.head = 1 := by
  rcases ok with ⟨empty, -⟩ | ⟨full, -⟩
  · exact absurd empty taken
  · exact full

end Known

/-! ## The steps of a producer -/

section Sending

variable {impl : Impl} {s : State ι κ α} {i : ι}

/-- What the producer that owns its side does is no concern of the other producers. -/
theorem Inv.other_producers (inv : Inv impl s) (fits : Fits impl ι κ)
    (owns : SendOwns impl s.cell i) (c : Cell ι κ α) (k : ι) (differ : k ≠ i) :
    SendOk impl c k (s.producers k).sawFull (s.producers k).pc := by
  have apart := owns.others fits differ
  exact (inv.producers k).keep (fun _ held => absurd (fun _ => held) apart)
    (fun own => absurd own apart)

/-- While the slot is free and a producer owns its side, no consumer looks. -/
theorem Inv.unread (inv : Inv impl s) (owns : SendOwns impl s.cell i) (free : s.cell.head = 0)
    (c : Cell ι κ α) (j : κ) :
    RecvOk impl c j (s.consumers j).sawEmpty (s.consumers j).pc := by
  refine (inv.consumers j).keep (fun locks held => ?_) (fun _ full => absurd (free.symm.trans full)
    (by decide))
  have own := owns (sendLocks_of_recvLocks locks)
  rw [own] at held
  cases held

variable [DecidableEq ι]

/-- A step of producer `i` that leads to `pc` and changes the channel to `c`. -/
theorem inv_of_send {c : Cell ι κ α} {pc : SendPc α} {saw : Bool} (cell : CellOk c)
    (own : SendOk impl c i saw pc)
    (others : ∀ k, k ≠ i → SendOk impl c k (s.producers k).sawFull (s.producers k).pc)
    (consumers : ∀ j, RecvOk impl c j (s.consumers j).sawEmpty (s.consumers j).pc) :
    Inv impl (State.observe ⟨c, update s.producers i ⟨pc, saw⟩, s.consumers⟩) := by
  refine Inv.observed cell (fun k => ?_) consumers
  by_cases same : k = i
  · subst same
    simpa using own
  · simpa [same] using others k same

theorem Inv.sends (inv : Inv impl s) {pc : SendPc α} {saw : Bool}
    (own : SendOk impl s.cell i saw pc) :
    Inv impl (State.observe ⟨s.cell, update s.producers i ⟨pc, saw⟩, s.consumers⟩) :=
  inv_of_send inv.cell own (fun k _ => inv.producers k) inv.consumers

/-- One access of a producer: no assertion fails, and the invariant is kept. -/
theorem channelSendStep_keeps (inv : Inv impl s) (fits : Fits impl ι κ) (i : ι)
    (start : Option α) :
    Ensures (fun _ => False) (channelSendStep impl i start s) (fun s' => Inv impl s'.observe) := by
  have ok := inv.producers i
  unfold channelSendStep
  split
  case h_1 v here => exact inv.sends trivial
  case h_2 result v here => exact inv.sends trivial
  case h_3 v here =>
    apply inv.sends
    split
    · next full => exact fun _ => inv.sawFull i (by rw [here]; rfl) full
    · next free =>
      split
      · next locks => exact locks
      · next locks => exact ⟨fun wrong => absurd wrong locks, inv.cell.empty free⟩
  case h_4 v here =>
    rw [here] at ok
    split
    · next unlocked =>
      have none : s.cell.headLock = none := Option.isNone_iff_eq_none.mp unlocked
      exact inv_of_send inv.cell ⟨ok, rfl⟩ (fun k _ => (inv.producers k).relock (by simp [none]))
        (fun j => (inv.consumers j).relock (by simp [none]))
    · trivial
  case h_5 v here =>
    rw [here] at ok
    apply inv.sends
    split
    · next full => exact ⟨ok.1, ok.2, fun _ => inv.sawFull i (by rw [here]; rfl) full⟩
    · next free => exact ⟨fun _ => ok.2, inv.cell.empty free⟩
  case h_6 v here =>
    rw [here] at ok
    simp only [ensures_bind, ensures_check, ensures_pure]
    exact ⟨fun _ => inv.sends ok, fun full => full ok.2⟩
  case h_7 v here =>
    rw [here] at ok
    obtain ⟨owns, free⟩ := ok
    refine inv_of_send ?_ ⟨owns, free, rfl⟩ (inv.other_producers fits owns _)
      (inv.unread owns free _)
    rcases inv.cell with empty | ⟨full, -⟩
    · exact .inl empty
    · simp [free] at full
  case h_8 v here =>
    rw [here] at ok
    obtain ⟨owns, free, written⟩ := ok
    refine inv_of_send ?_ ?_ (inv.other_producers fits owns _) (inv.unread owns free _)
    · rcases inv.cell with ⟨-, same⟩ | ⟨full, -⟩
      · refine .inr ⟨rfl, ?_⟩
        rw [written, same]
        rfl
      · simp [free] at full
    · split
      · next locks => exact ⟨locks, owns locks, fun wrong => by cases wrong⟩
      · exact fun wrong => by cases wrong
  case h_9 result here =>
    rw [here] at ok
    obtain ⟨locks, held, saw⟩ := ok
    exact inv_of_send inv.cell saw
      (fun k differ => (inv.producers k).relock (by simp [held, differ.symm]))
      (fun j => (inv.consumers j).relock (by simp [held]))
  case h_10 => trivial

end Sending

/-! ## The steps of a consumer -/

section Receiving

variable {impl : Impl} {s : State ι κ α} {j : κ}

theorem Inv.other_consumers (inv : Inv impl s) (fits : Fits impl ι κ)
    (owns : RecvOwns impl s.cell j) (c : Cell ι κ α) (k : κ) (differ : k ≠ j) :
    RecvOk impl c k (s.consumers k).sawEmpty (s.consumers k).pc := by
  have apart := owns.others fits differ
  exact (inv.consumers k).keep (fun _ held => absurd (fun _ => held) apart)
    (fun own => absurd own apart)

/-- Taking the item concerns no producer, for all of them find the slot taken. -/
theorem Inv.unwritten (inv : Inv impl s) (full : s.cell.head = 1) {log : List (κ × α)} (i : ι) :
    SendOk impl { s.cell with head := 0, log := log } i (s.producers i).sawFull
      (s.producers i).pc :=
  (inv.producers i).keep (fun _ held => held)
    (fun _ free => absurd (free.symm.trans full) (by decide))

variable [DecidableEq κ]

theorem inv_of_recv {c : Cell ι κ α} {pc : RecvPc α} {saw : Bool} {results : List α}
    (cell : CellOk c)
    (producers : ∀ i, SendOk impl c i (s.producers i).sawFull (s.producers i).pc)
    (own : RecvOk impl c j saw pc)
    (others : ∀ k, k ≠ j → RecvOk impl c k (s.consumers k).sawEmpty (s.consumers k).pc) :
    Inv impl (State.observe ⟨c, s.producers, update s.consumers j ⟨pc, saw,
    results⟩⟩) := by
  refine Inv.observed cell producers fun k => ?_
  by_cases same : k = j
  · subst same
    simpa using own
  · simpa [same] using others k same

theorem Inv.receives (inv : Inv impl s) {pc : RecvPc α} {saw : Bool} {results : List α}
    (own : RecvOk impl s.cell j saw pc) :
    Inv impl (State.observe
      ⟨s.cell, s.producers, update s.consumers j ⟨pc, saw, results⟩⟩) :=
  inv_of_recv inv.cell inv.producers own fun k _ => inv.consumers k

/-- One access of a consumer: no assertion fails, and the invariant is kept. -/
theorem channelRecvStep_keeps (inv : Inv impl s) (fits : Fits impl ι κ) (j : κ) (start : Bool) :
    Ensures (fun _ => False) (channelRecvStep impl j start s) (fun s' => Inv impl s'.observe) := by
  have ok := inv.consumers j
  unfold channelRecvStep
  split
  case h_1 here => exact inv.receives trivial
  case h_2 result here => exact inv.receives trivial
  case h_3 here =>
    apply inv.receives
    split
    · next empty => exact fun _ => inv.sawEmpty j (by rw [here]; rfl) empty
    · next taken =>
      split
      · next locks => exact locks
      · next locks => exact ⟨fun wrong => absurd wrong locks, inv.cell.full taken⟩
  case h_4 here =>
    rw [here] at ok
    split
    · next unlocked =>
      have none : s.cell.headLock = none := Option.isNone_iff_eq_none.mp unlocked
      refine inv_of_recv ?_ (fun i => (inv.producers i).relock (by simp [none])) ?_
        (fun k _ => (inv.consumers k).relock (by simp [none]))
      · exact inv.cell
      · exact ⟨ok, rfl⟩
    · trivial
  case h_5 here =>
    rw [here] at ok
    apply inv.receives
    split
    · next empty => exact ⟨ok.1, ok.2, fun _ => inv.sawEmpty j (by rw [here]; rfl) empty⟩
    · next taken => exact ⟨fun _ => ok.2, inv.cell.full taken⟩
  case h_6 here =>
    rw [here] at ok
    simp only [ensures_bind, ensures_check, ensures_pure]
    exact ⟨fun _ => inv.receives ok, fun empty => empty ok.2⟩
  case h_7 here =>
    rw [here] at ok
    exact inv.receives ⟨ok.1, ok.2, rfl⟩
  case h_8 v here =>
    rw [here] at ok
    obtain ⟨owns, full, copied⟩ := ok
    refine inv_of_recv ?_ (inv.unwritten full) ?_ (inv.other_consumers fits owns _)
    · rcases inv.cell with ⟨empty, -⟩ | ⟨-, last⟩
      · simp [full] at empty
      · exact .inl ⟨rfl, by simp [last, copied, Cell.received]⟩
    · split
      · next locks => exact ⟨locks, owns locks, rfl⟩
      · exact fun wrong => by cases wrong
  case h_9 v here =>
    rw [here] at ok
    simp only [ensures_bind, ensures_check, ensures_pure]
    exact ⟨fun _ => inv.receives ⟨ok.1, ok.2.1, fun wrong => by cases wrong⟩,
      fun full => full ok.2.2⟩
  case h_10 result here =>
    rw [here] at ok
    obtain ⟨locks, held, saw⟩ := ok
    refine inv_of_recv ?_ (fun i => (inv.producers i).relock (by simp [held])) ?_
      (fun k differ => (inv.consumers k).relock (by simp [held, differ.symm]))
    · exact inv.cell
    · exact saw
  case h_11 => trivial

end Receiving

/-! ## Every interleaving -/

section Runs

variable {impl : Impl} {s : State ι κ α} {memory : α}

theorem inv_initial : Inv impl (initial memory : State ι κ α) where
  cell := .inl ⟨rfl, rfl⟩
  producers _ := trivial
  consumers _ := trivial
  sawFull _ calling := by cases calling
  sawEmpty _ calling := by cases calling

variable [DecidableEq ι] [DecidableEq κ]

theorem move_keeps (inv : Inv impl s) (fits : Fits impl ι κ) (party : Party ι κ α) :
    Ensures (fun _ => False) (move impl party s) (Inv impl) := by
  cases party with
  | producer i start => exact ensures_bind.mpr (channelSendStep_keeps inv fits i start)
  | consumer j start => exact ensures_bind.mpr (channelRecvStep_keeps inv fits j start)

theorem reachable_inv (fits : Fits impl ι κ) (reached : (system impl memory).Reachable s) :
    Inv impl s := by
  refine reached.invariant ?_ ?_
  · rintro s rfl
    exact inv_initial
  · rintro s s' - inv ⟨party, moved⟩
    exact (move_keeps inv fits party).value moved

end Runs

/-! ### What the calls return -/

section Results

variable {impl : Impl} {s : State ι κ α} {memory : α}

/-- Taken, and not returned yet. -/
def RecvPc.pending : RecvPc α → List α
  | .cleared v => [v]
  | .unlock result => result.toList
  | _ => []

variable [DecidableEq κ]

/-- The calls of each thread have returned what it took, but for the item of the call it
is in. -/
def State.Answers (s : State ι κ α) : Prop :=
  ∀ j, s.cell.taken j = (s.consumers j).results ++ (s.consumers j).pc.pending

theorem State.Answers.observed (answers : s.Answers) : s.observe.Answers := answers

/-- A step of `j` that takes the items `new`. -/
theorem State.Answers.step (answers : s.Answers) {j : κ} {c : Cell ι κ α} {x : Consumer α}
    (new : List α) (log : c.log = s.cell.log ++ new.map (j, ·))
    (own : (s.consumers j).results ++ (s.consumers j).pc.pending ++ new =
      x.results ++ x.pc.pending) :
    State.Answers ⟨c, s.producers, update s.consumers j x⟩ := by
  intro k
  change c.taken k = _
  have before := answers k
  rw [Cell.taken] at before ⊢
  rw [log, List.filter_append, List.map_append, before]
  by_cases self : k = j
  · subst self
    simpa [List.filter_map, comp_def] using own
  · simp [self, Ne.symm self]

/-- A step of `j` that takes nothing. -/
theorem State.Answers.goto (answers : s.Answers) {j : κ} {c : Cell ι κ α} {pc : RecvPc α}
    (log : c.log = s.cell.log) (own : (s.consumers j).pc.pending = pc.result ++ pc.pending) :
    State.Answers { s.recvGoto j pc with cell := c } := by
  refine answers.step [] (by simpa using log) ?_
  simp [own]

theorem channelRecvStep_answers (answers : s.Answers) (j : κ) (start : Bool) :
    Ensures (fun _ => True) (channelRecvStep impl j start s) State.Answers := by
  unfold channelRecvStep
  split
  case h_1 here | h_2 result here =>
    refine @State.Answers.step _ _ _ s _ answers j s.cell _ [] (by simp) ?_
    simp [here, RecvPc.pending]
  case h_3 here =>
    apply answers.goto rfl
    split
    · simp [here, RecvPc.pending, RecvPc.result]
    · split <;> simp [here, RecvPc.pending, RecvPc.result]
  case h_4 here =>
    split
    · exact answers.goto rfl (by simp [here, RecvPc.pending, RecvPc.result])
    · trivial
  case h_5 here =>
    apply answers.goto rfl
    split <;> simp [here, RecvPc.pending, RecvPc.result]
  case h_6 here =>
    simp only [ensures_bind, ensures_check, ensures_pure]
    exact ⟨fun _ => answers.goto rfl (by simp [here, RecvPc.pending, RecvPc.result]),
      fun _ => trivial⟩
  case h_7 here => exact answers.goto rfl (by simp [here, RecvPc.pending, RecvPc.result])
  case h_8 v here =>
    refine answers.step [v] rfl ?_
    split <;> simp [here, RecvPc.pending, RecvPc.result]
  case h_9 v here =>
    simp only [ensures_bind, ensures_check, ensures_pure]
    exact ⟨fun _ => answers.goto rfl (by simp [here, RecvPc.pending, RecvPc.result]),
      fun _ => trivial⟩
  case h_10 result here => exact answers.goto rfl (by simp [here, RecvPc.pending, RecvPc.result])
  case h_11 => trivial

variable [DecidableEq ι]

omit [DecidableEq κ] in
/-- A producer takes nothing. -/
theorem channelSendStep_log (i : ι) (start : Option α) :
    Ensures (fun _ => True) (channelSendStep impl i start s) fun s' =>
      s'.cell.log = s.cell.log ∧ s'.consumers = s.consumers := by
  unfold channelSendStep
  split
  case h_4 =>
    split
    · exact ⟨rfl, rfl⟩
    · trivial
  case h_6 =>
    simp only [ensures_bind, ensures_check, ensures_pure]
    exact ⟨fun _ => ⟨rfl, rfl⟩, fun _ => trivial⟩
  case h_10 => trivial
  all_goals exact ⟨rfl, rfl⟩

theorem move_answers (answers : s.Answers) (party : Party ι κ α) :
    Ensures (fun _ => True) (move impl party s) State.Answers := by
  cases party with
  | producer i start =>
    rw [move, ensures_bind]
    apply (channelSendStep_log i start).mono
    rintro s' ⟨log, consumers⟩ j
    change s'.cell.taken j = (s'.consumers j).results ++ (s'.consumers j).pc.pending
    rw [Cell.taken, log, consumers]
    exact answers j
  | consumer j start =>
    rw [move, ensures_bind]
    apply (channelRecvStep_answers answers j start).mono
    intro s' kept
    exact kept.observed

theorem reachable_answers (reached : (system impl memory).Reachable s) : s.Answers := by
  refine reached.invariant ?_ ?_
  · rintro s rfl j
    rfl
  · rintro s s' - answers ⟨party, moved⟩
    exact (move_answers answers party).value moved

end Results

/-- Between the test that found the slot free, or taken, and the write of `head`. -/
def SendPc.writing : SendPc α → Bool
  | .copy _ | .publish _ => true
  | _ => false

def RecvPc.reading : RecvPc α → Bool
  | .copy | .publish _ => true
  | _ => false

theorem Inv.writes {impl : Impl} {s : State ι κ α} (inv : Inv impl s) {i : ι}
    (writing : (s.producers i).pc.writing = true) : SendOwns impl s.cell i ∧ s.cell.head = 0 := by
  have ok := inv.producers i
  cases here : (s.producers i).pc with
  | copy v =>
    rw [here] at ok
    exact ok
  | publish v =>
    rw [here] at ok
    exact ⟨ok.1, ok.2.1⟩
  | _ => simp [here, SendPc.writing] at writing

theorem Inv.reads {impl : Impl} {s : State ι κ α} (inv : Inv impl s) {j : κ}
    (reading : (s.consumers j).pc.reading = true) : RecvOwns impl s.cell j ∧ s.cell.head = 1 := by
  have ok := inv.consumers j
  cases here : (s.consumers j).pc with
  | copy =>
    rw [here] at ok
    exact ok
  | publish v =>
    rw [here] at ok
    exact ⟨ok.1, ok.2.1⟩
  | _ => simp [here, RecvPc.reading] at reading

end Tasking.UnbufferedProtocol
