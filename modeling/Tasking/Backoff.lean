import Mathlib.Data.List.Nodup
import Mathlib.Data.List.Perm.Subperm
import Tasking.Fallible
import Tasking.Transition

/-!
Waiting for tasks under `wait_cond`.  A worker that backs off holds its lock from
before it sends its failed request until `pthread_cond_wait`; whoever sends a task in
return signals the condition under the same lock.  The threads take turns at every
lock, unlock, send, test of a channel, wait and signal, and a wait may also end by
itself.

Answers to requests that circulate are not followed by a signal, so the steal requests
of a worker are part of the state.  How many it has sent is not: it may send one
whenever it has a channel for it.
-/
namespace Tasking.Backoff
open Fallible Transition Function

/-- A task, or the pseudo-task of `RT_EXIT_FN`. -/
inductive Message where
  | task | exit
  deriving DecidableEq, Repr

/-- A steal request is on its way from worker to worker, or was sent to the parent to
be held there. -/
inductive Status where
  | circulating | failed
  deriving DecidableEq, Repr

inductive Pc (ι : Type) where
  /-- Anything but what follows. -/
  | run
  /-- Lock to back off, with its last steal request in hand. -/
  | lockSelf (c : ℕ)
  /-- `SEND_REQ_WORKER(tree.parent, req)`. -/
  | sendFailed (c : ℕ)
  /-- `peek` looks into channel `c`. -/
  | peek (c : ℕ)
  /-- Every channel was empty. -/
  | condWait
  /-- In `pthread_cond_wait`, without a signal. -/
  | blocked
  /-- Woken up; `pthread_cond_wait` locks again. -/
  | relock
  | unlockSelf
  /-- A message was sent on channel `c` of worker `i`; lock to signal. -/
  | lockFor (i : ι) (c : ℕ)
  | signal (i : ι) (c : ℕ)
  | unlockFor (i : ι)
  deriving DecidableEq, Repr

structure Worker (ι : Type) where
  pc : Pc ι
  /-- `channel_stack`. -/
  stack : List ℕ
  /-- It has received the pseudo-task. -/
  finished : Bool
  /-- `chan_tasks[ID]`. -/
  chan : ℕ → Option Message
  /-- Its steal requests, by the channel they carry. -/
  request : ℕ → Option Status
  /-- Who holds `backoff[ID].lock`. -/
  lock : Option ι

abbrev State (ι : Type) := ι → Worker ι

inductive BackoffFault where
  /-- `assert(ret)` of `async_action`. -/
  | exitRefused
  deriving DecidableEq, Repr

inductive Act (ι : Type) where
  | request
  | forget (c : ℕ)
  | reply (i : ι) (c : ℕ)
  | share (i : ι) (c : ℕ)
  | exit (i : ι)
  | receive (c : ℕ)
  | backOff (c : ℕ)
  /-- The next step of backing off or signalling; a wait ends by itself. -/
  | go
  deriving DecidableEq, Repr

section Steps

variable {ι : Type} [DecidableEq ι]

/-- A task is sent for the request with channel `c`; a full channel refuses it. -/
def Worker.answer (x : Worker ι) (c : ℕ) : Worker ι :=
  { x with
    chan := update x.chan c (some ((x.chan c).getD .task))
    request := update x.request c none }

/-- The steal request comes back and its channel is free again. -/
def Worker.takeBack (x : Worker ι) (c : ℕ) : Worker ι :=
  { x with stack := c :: x.stack, request := update x.request c none }

def Worker.receive (x : Worker ι) (c : ℕ) (m : Message) : Worker ι :=
  { x with
    chan := update x.chan c none
    stack := c :: x.stack
    finished := x.finished || m = .exit }

/-- `pthread_cond_signal(&backoff[i].signal)`: only worker `i` waits for it. -/
def wake (i : ι) (s : State ι) : State ι :=
  if (s i).pc = .blocked then update s i { s i with pc := .relock } else s

def setPc (w : ι) (pc : Pc ι) (s : State ι) : State ι := update s w { s w with pc := pc }

def setLock (i : ι) (holder : Option ι) (s : State ι) : State ι :=
  update s i { s i with lock := holder }

/-- What a thread may do when it is neither backing off nor signalling. -/
def act (maxSteal : ℕ) (parent : ι → Option ι) (w : ι) (s : State ι) :
    Act ι → Fallible.Checked BackoffFault (State ι)
  | .request =>
    match (s w).stack with
    | [] => .error .disabled
    | c :: rest => do
      await ((s w).finished = false)
      return update s w { s w with
        stack := rest, request := update (s w).request c (some .circulating) }
  | .forget c => do
    await ((s w).request c = some .circulating)
    return update s w ((s w).takeBack c)
  | .reply i c => do
    await (i ≠ w ∧ (s i).request c = some .circulating)
    return update s i ((s i).answer c)
  | .share i c => do
    await (i ≠ w ∧ parent i = some w ∧ (s i).request c = some .failed)
    return setPc w (.lockFor i c) (update s i ((s i).answer c))
  | .exit i => do
    await (i ≠ w ∧ parent i = some w)
    check ((s i).chan 0 = none) .exitRefused
    return setPc w (.lockFor i 0) (update s i
      { s i with chan := update (s i).chan 0 (some .exit) })
  | .receive c =>
    match (s w).chan c with
    | none => .error .disabled
    | some m => return update s w ((s w).receive c m)
  | .backOff c => do
    -- all other requests were dropped, so that their channels are back
    await ((s w).finished = false ∧ parent w ≠ none ∧ (s w).request c = some .circulating ∧
      (1 < maxSteal → (s w).stack.length = maxSteal - 1))
    return update s w { s w with
      request := update (s w).request c none, pc := .lockSelf c }
  | .go => .error .disabled

/-- The next step of a thread that backs off or signals. -/
def go (maxSteal : ℕ) (w : ι) (s : State ι) : Fallible.Checked BackoffFault (State ι) :=
  match (s w).pc with
  | .run => .error .disabled
  | .lockSelf c => do
    await ((s w).lock = none)
    return setPc w (.sendFailed c) (setLock w (some w) s)
  | .sendFailed c =>
    return update s w { s w with
      request := update (s w).request c (some .failed), pc := .peek 0 }
  | .peek c =>
    if c < maxSteal then
      if (s w).chan c ≠ none then return setPc w .unlockSelf s else return setPc w (.peek (c + 1)) s
    else return setPc w .condWait s
  | .condWait => return setPc w .blocked (setLock w none s)
  | .blocked => return setPc w .relock s
  | .relock => do
    await ((s w).lock = none)
    return setPc w (.peek 0) (setLock w (some w) s)
  | .unlockSelf => return setPc w .run (setLock w none s)
  | .lockFor i c => do
    await ((s i).lock = none)
    return setPc w (.signal i c) (setLock i (some w) s)
  | .signal i _ => return setPc w (.unlockFor i) (wake i s)
  | .unlockFor i => return setPc w .run (setLock i none s)

def step (maxSteal : ℕ) (parent : ι → Option ι) (move : ι × Act ι) (s : State ι) :
    Fallible.Checked BackoffFault (State ι) :=
  if (s move.1).pc = .run then act maxSteal parent move.1 s move.2
  else do
    await (move.2 = .go)
    go maxSteal move.1 s

/-- Every channel is on its worker's stack. -/
def initial (maxSteal : ℕ) : State ι := fun _ =>
  ⟨.run, (List.range maxSteal).reverse, false, fun _ => none, fun _ => none, none⟩

def system (maxSteal : ℕ) (parent : ι → Option ι) : System (State ι) :=
  .ofMoves (initial maxSteal) (step maxSteal parent)

end Steps

/-! ## Where the threads are -/

section Positions

variable {ι : Type}

/-- The lock that the thread of worker `w` holds. -/
def Pc.holds (w : ι) : Pc ι → Option ι
  | .sendFailed _ | .peek _ | .condWait | .unlockSelf => some w
  | .signal i _ | .unlockFor i => some i
  | _ => none

/-- From the decision to back off to the end of the wait. -/
def Pc.backing : Pc ι → Bool
  | .lockSelf _ | .sendFailed _ | .peek _ | .condWait | .blocked | .relock | .unlockSelf => true
  | _ => false

/-- The channel of the request that the thread has in hand. -/
def Pc.hand : Pc ι → Option ℕ
  | .lockSelf c | .sendFailed c => some c
  | _ => none

/-- The thread has seen channel `c` empty, and has not come back to it: what is sent there now
has to be signalled. -/
def Pc.passed (c : ℕ) : Pc ι → Prop
  | .peek k => c < k
  | .condWait | .blocked => True
  | _ => False

/-- The thread has sent on channel `c` of worker `i`, and not yet signalled. -/
def Pc.Pending (i : ι) (c : ℕ) (pc : Pc ι) : Prop := pc = .lockFor i c ∨ pc = .signal i c

/-- The channels and requests of a worker that was not told to stop: each channel is
on the stack or in use, and only a worker that is not backing off has requests that
circulate. -/
structure Ledger (maxSteal : ℕ) (x : Worker ι) : Prop where
  distinct : x.stack.Nodup
  stacked : ∀ c ∈ x.stack, c < maxSteal
  requested : ∀ c, x.request c ≠ none → c < maxSteal ∧ c ∉ x.stack
  sent : ∀ c, x.chan c = some .task →
    c < maxSteal ∧ c ∉ x.stack ∧ x.request c = none ∧ x.pc.hand ≠ some c
  hand : ∀ c, x.pc.hand = some c → c < maxSteal ∧ c ∉ x.stack ∧ x.request c = none
  backing : x.pc.backing = true → ∀ c, x.request c ≠ some .circulating

/-- What holds in every reachable state.  The last part is what `WAIT` relies on: a message that
a worker has looked past is going to be signalled. -/
structure Inv (maxSteal : ℕ) (s : State ι) : Prop where
  locks : ∀ w i, (s w).pc.holds w = some i → (s i).lock = some w
  finished : ∀ i, (s i).finished = true → (s i).pc.backing = false
  ledger : ∀ i, (s i).finished = false → Ledger maxSteal (s i)
  covered : ∀ i, ∀ c < maxSteal, (s i).chan c ≠ none → (s i).pc.passed c →
    ∃ w, (s w).pc.Pending i c

variable {maxSteal : ℕ} {x : Worker ι} {pc : Pc ι} {c : ℕ}

theorem Ledger.setPc (ledger : Ledger maxSteal x)
    (hand : ∀ c, pc.hand = some c → x.pc.hand = some c)
    (backing : pc.backing = true → x.pc.backing = true) : Ledger maxSteal { x with pc := pc } where
  distinct := ledger.distinct
  stacked := ledger.stacked
  requested := ledger.requested
  sent c full := by
    obtain ⟨small, off, free, away⟩ := ledger.sent c full
    exact ⟨small, off, free, fun held => away (hand c held)⟩
  hand c held := ledger.hand c (hand c held)
  backing here := ledger.backing (backing here)

/-- A channel is taken from the stack for a request. -/
theorem Ledger.request {rest : List ℕ} (ledger : Ledger maxSteal x) (top : x.stack = c :: rest)
    (idle : x.pc = .run) : Ledger maxSteal { x with
      stack := rest, request := update x.request c (some .circulating) } := by
  have distinct := ledger.distinct
  rw [top, List.nodup_cons] at distinct
  have stacked := ledger.stacked
  rw [top] at stacked
  have below : ∀ d, d ∉ x.stack → d ≠ c ∧ d ∉ rest := by
    intro d off
    simpa [top] using off
  refine ⟨distinct.2, fun d inside => stacked d (List.mem_cons_of_mem c inside), ?_, ?_, ?_, ?_⟩
  · intro d made
    by_cases same : d = c
    · subst same
      exact ⟨stacked d List.mem_cons_self, distinct.1⟩
    · obtain ⟨small, off⟩ := ledger.requested d (by simpa [same] using made)
      exact ⟨small, (below d off).2⟩
  · intro d full
    obtain ⟨small, off, free, away⟩ := ledger.sent d full
    exact ⟨small, (below d off).2, by simp [(below d off).1, free], away⟩
  · intro d held
    simp [idle, Pc.hand] at held
  · intro here
    simp [idle, Pc.backing] at here

theorem Ledger.takeBack (ledger : Ledger maxSteal x) (made : x.request c = some .circulating)
    (idle : x.pc = .run) : Ledger maxSteal (x.takeBack c) := by
  obtain ⟨small, off⟩ := ledger.requested c (by simp [made])
  refine ⟨List.nodup_cons.mpr ⟨off, ledger.distinct⟩, ?_, ?_, ?_, ?_, ?_⟩
  · intro d inside
    rcases List.mem_cons.mp inside with rfl | inside
    · exact small
    · exact ledger.stacked d inside
  · intro d made'
    have differ : d ≠ c := by
      rintro rfl
      simp [Worker.takeBack] at made'
    obtain ⟨small', off'⟩ := ledger.requested d (by simpa [Worker.takeBack, differ] using made')
    exact ⟨small', by simp [Worker.takeBack, differ, off']⟩
  · intro d full
    obtain ⟨small', off', free, away⟩ := ledger.sent d full
    have differ : d ≠ c := by
      rintro rfl
      simp [made] at free
    exact ⟨small', by simp [Worker.takeBack, differ, off'], by simp [Worker.takeBack, differ, free],
      away⟩
  · intro d held
    simp [Worker.takeBack, idle, Pc.hand] at held
  · intro here
    simp [Worker.takeBack, idle, Pc.backing] at here

theorem Ledger.answer (ledger : Ledger maxSteal x) {status : Status}
    (made : x.request c = some status) :
    Ledger maxSteal (x.answer c) := by
  obtain ⟨small, off⟩ := ledger.requested c (by simp [made])
  refine ⟨ledger.distinct, ledger.stacked, ?_, ?_, ?_, ?_⟩
  · intro d made'
    have differ : d ≠ c := by
      rintro rfl
      simp [Worker.answer] at made'
    exact ledger.requested d (by simpa [Worker.answer, differ] using made')
  · intro d full
    by_cases same : d = c
    · subst same
      refine ⟨small, off, by simp [Worker.answer], fun held => ?_⟩
      have free := (ledger.hand d held).2.2
      simp [made] at free
    · obtain ⟨small', off', free, away⟩ := ledger.sent d (by simpa [Worker.answer, same] using full)
      exact ⟨small', off', by simp [Worker.answer, same, free], away⟩
  · intro d held
    obtain ⟨small', off', free⟩ := ledger.hand d held
    have differ : d ≠ c := by
      rintro rfl
      simp [made] at free
    exact ⟨small', off', by simp [Worker.answer, differ, free]⟩
  · intro here d
    by_cases same : d = c
    · simp [Worker.answer, same]
    · simpa [Worker.answer, same] using ledger.backing here d

theorem Ledger.exit (ledger : Ledger maxSteal x) :
    Ledger maxSteal { x with chan := update x.chan c (some .exit) } where
  distinct := ledger.distinct
  stacked := ledger.stacked
  requested := ledger.requested
  sent d full := by
    by_cases same : d = c
    · simp [same] at full
    · exact ledger.sent d (by simpa [same] using full)
  hand := ledger.hand
  backing := ledger.backing

theorem Ledger.receive (ledger : Ledger maxSteal x) (full : x.chan c = some .task)
    (idle : x.pc = .run) : Ledger maxSteal (x.receive c .task) := by
  obtain ⟨small, off, free, away⟩ := ledger.sent c full
  refine ⟨List.nodup_cons.mpr ⟨off, ledger.distinct⟩, ?_, ?_, ?_, ?_, ?_⟩
  · intro d inside
    rcases List.mem_cons.mp inside with rfl | inside
    · exact small
    · exact ledger.stacked d inside
  · intro d made
    have made : x.request d ≠ none := made
    obtain ⟨small', off'⟩ := ledger.requested d made
    have differ : d ≠ c := by
      rintro rfl
      exact made free
    exact ⟨small', by simp [Worker.receive, differ, off']⟩
  · intro d full'
    have differ : d ≠ c := by
      rintro rfl
      simp [Worker.receive] at full'
    obtain ⟨small', off', free', away'⟩ :=
      ledger.sent d (by simpa [Worker.receive, differ] using full')
    exact ⟨small', by simp [Worker.receive, differ, off'], free', away'⟩
  · intro d held
    simp [Worker.receive, idle, Pc.hand] at held
  · intro here
    simp [Worker.receive, idle, Pc.backing] at here

/-- When all other channels are on the stack, the request in hand is the last. -/
theorem Ledger.backOff (ledger : Ledger maxSteal x) (made : x.request c = some .circulating)
    (last : 1 < maxSteal → x.stack.length = maxSteal - 1) : Ledger maxSteal { x with
      request := update x.request c none, pc := .lockSelf c } := by
  obtain ⟨small, off⟩ := ledger.requested c (by simp [made])
  have others : ∀ d, d ≠ c → x.request d = none := by
    intro d differ
    by_contra made'
    obtain ⟨small', off'⟩ := ledger.requested d made'
    have distinct : (c :: d :: x.stack).Nodup := by
      simp [differ.symm, off, off', ledger.distinct]
    have within : (c :: d :: x.stack) ⊆ List.range maxSteal := by
      intro e known
      rw [List.mem_range]
      rcases List.mem_cons.mp known with rfl | known
      · exact small
      · rcases List.mem_cons.mp known with rfl | known
        · exact small'
        · exact ledger.stacked e known
    have short := (List.subperm_of_subset distinct within).length_le
    simp only [List.length_cons, List.length_range] at short
    have := last (by omega)
    omega
  have free : ∀ d, update x.request c none d = none := by
    intro d
    by_cases same : d = c
    · simp [same]
    · simp [same, others d same]
  refine ⟨ledger.distinct, ledger.stacked, ?_, ?_, ?_, ?_⟩
  · intro d made'
    exact absurd (free d) made'
  · intro d full
    obtain ⟨small', off', free', -⟩ := ledger.sent d full
    refine ⟨small', off', free d, ?_⟩
    simp only [Pc.hand, ne_eq, Option.some.injEq]
    rintro rfl
    simp [made] at free'
  · intro d held
    obtain rfl : c = d := Option.some.inj held
    exact ⟨small, off, free c⟩
  · intro _ d
    simp [free d]

theorem Ledger.sendFailed (ledger : Ledger maxSteal x) (here : x.pc = .sendFailed c) :
    Ledger maxSteal { x with
      request := update x.request c (some .failed), pc := .peek 0 } := by
  obtain ⟨small, off, free⟩ := ledger.hand c (by rw [here]; rfl)
  refine ⟨ledger.distinct, ledger.stacked, ?_, ?_, ?_, ?_⟩
  · intro d made
    by_cases same : d = c
    · subst same
      exact ⟨small, off⟩
    · exact ledger.requested d (by simpa [same] using made)
  · intro d full
    obtain ⟨small', off', free', away⟩ := ledger.sent d full
    have differ : d ≠ c := by
      rintro rfl
      exact away (by rw [here]; rfl)
    exact ⟨small', off', by simp [differ, free'], by simp [Pc.hand]⟩
  · intro d held
    cases held
  · intro _ d
    by_cases same : d = c
    · simp [same]
    · simpa [same] using ledger.backing (by rw [here]; rfl) d

end Positions

/-! ## What the steps preserve -/

section Invariant

variable {ι : Type} [DecidableEq ι] {maxSteal : ℕ} {s : State ι} {w i : ι} {pc : Pc ι}
  {y : Worker ι} {l : Option ι}

theorem setPc_self : (setPc w pc s w) = { s w with pc := pc } := by
  simp [setPc]

theorem setPc_other {v : ι} (other : v ≠ w) : setPc w pc s v = s v := by
  simp [setPc, other]

/-- A thread changes what belongs to its own worker, except for the lock. -/
theorem Inv.own (inv : Inv maxSteal s) (lock : y.lock = (s w).lock)
    (holds : ∀ i, y.pc.holds w = some i → (s i).lock = some w)
    (finished : y.finished = true → y.pc.backing = false)
    (ledger : y.finished = false → Ledger maxSteal y)
    (passed : ∀ c < maxSteal, y.chan c ≠ none → y.pc.passed c →
      ((s w).chan c ≠ none ∧ (s w).pc.passed c) ∨ ∃ v, (s v).pc.Pending w c)
    (pending : ∀ i c, (s w).pc.Pending i c →
      y.pc.Pending i c ∨ ¬ (update s w y i).pc.passed c) :
    Inv maxSteal (update s w y) where
  locks v i held := by
    have owner : (s i).lock = some v := by
      by_cases same : v = w
      · subst same
        rw [update_self] at held
        exact holds i held
      · rw [update_of_ne same] at held
        exact inv.locks v i held
    by_cases same : i = w
    · subst same
      simpa [lock] using owner
    · simpa [same] using owner
  finished v := by
    by_cases same : v = w
    · subst same
      simpa using finished
    · simpa [same] using inv.finished v
  ledger v := by
    by_cases same : v = w
    · subst same
      simpa using ledger
    · simpa [same] using inv.ledger v
  covered v c small full seen := by
    have sender : ∃ u, (s u).pc.Pending v c := by
      by_cases same : v = w
      · subst same
        rw [update_self] at full seen
        rcases passed c small full seen with before | sender
        · exact inv.covered v c small before.1 before.2
        · exact sender
      · rw [update_of_ne same] at full seen
        exact inv.covered v c small full seen
    obtain ⟨u, sender⟩ := sender
    by_cases same : u = w
    · subst same
      rcases pending v c sender with still | unseen
      · exact ⟨u, by rwa [update_self]⟩
      · exact absurd seen unseen
    · exact ⟨u, by rwa [update_of_ne same]⟩

theorem Inv.setPc (inv : Inv maxSteal s) (holds : ∀ i, pc.holds w = some i → (s i).lock = some w)
    (hand : ∀ c, pc.hand = some c → (s w).pc.hand = some c)
    (backing : pc.backing = true → (s w).pc.backing = true)
    (passed : ∀ c < maxSteal, (s w).chan c ≠ none → pc.passed c → (s w).pc.passed c)
    (pending : ∀ i c, (s w).pc.Pending i c →
      pc.Pending i c ∨ ¬ (Backoff.setPc w pc s i).pc.passed c) :
    Inv maxSteal (Backoff.setPc w pc s) := by
  refine inv.own (y := { s w with pc := pc }) rfl holds ?_ ?_ ?_ pending
  · intro done
    have away := inv.finished w done
    change pc.backing = false
    cases here : pc.backing with
    | false => rfl
    | true => exact absurd ((backing here).symm.trans away) (by simp)
  · intro going
    exact (inv.ledger w going).setPc hand backing
  · exact fun c small full seen => .inl ⟨full, passed c small full seen⟩

theorem setLock_eq (v : ι) :
    setLock i l s v = { s v with lock := if v = i then l else (s v).lock } := by
  by_cases same : v = i
  · subst same
    simp [setLock]
  · simp [setLock, same]

/-- A lock may change hands as long as nobody loses it who needs it. -/
theorem Inv.setLock (inv : Inv maxSteal s) (locks : ∀ v, (s v).pc.holds v = some i → l = some v) :
    Inv maxSteal (Backoff.setLock i l s) where
  locks v j held := by
    rw [setLock_eq] at held ⊢
    by_cases same : j = i
    · subst same
      simpa using locks v held
    · simpa [same] using inv.locks v j held
  finished v := by
    rw [setLock_eq]
    exact inv.finished v
  ledger v going := by
    rw [setLock_eq] at going ⊢
    obtain ⟨distinct, stacked, requested, sent, hand, backing⟩ := inv.ledger v going
    exact ⟨distinct, stacked, requested, sent, hand, backing⟩
  covered v c small := by
    simp only [setLock_eq]
    exact inv.covered v c small

theorem setPc_setLock :
    Backoff.setPc w pc (Backoff.setLock i l s) = Backoff.setLock i l (Backoff.setPc w pc s) := by
  funext v
  by_cases same : v = w
  · subst same
    simp [setPc_self, setLock_eq]
  · simp [setPc_other same, setLock_eq]

/-- A thread takes a lock that is free. -/
theorem Inv.acquire (inv : Inv maxSteal s) (free : (s i).lock = none) (holds : pc.holds w = some i)
    (hand : ∀ c, pc.hand = some c → (s w).pc.hand = some c)
    (backing : pc.backing = true → (s w).pc.backing = true)
    (passed : ∀ c, ¬ pc.passed c) (pending : ∀ i c, (s w).pc.Pending i c → pc.Pending i c) :
    Inv maxSteal (Backoff.setPc w pc (Backoff.setLock i (some w) s)) := by
  have taken : Inv maxSteal (Backoff.setLock i (some w) s) := by
    apply inv.setLock
    intro v held
    have owner := inv.locks v i held
    rw [free] at owner
    cases owner
  apply taken.setPc
  · intro j held
    obtain rfl : i = j := Option.some.inj (holds.symm.trans held)
    simp [setLock_eq]
  · simpa only [setLock_eq] using hand
  · simpa only [setLock_eq] using backing
  · intro c _ _ seen
    exact absurd seen (passed c)
  · intro j c sender
    rw [setLock_eq] at sender
    exact .inl (pending j c sender)

theorem Inv.release (inv : Inv maxSteal s) (held : (s w).pc.holds w = some i)
    (holds : pc.holds w = none) (hand : ∀ c, pc.hand = some c → (s w).pc.hand = some c)
    (backing : pc.backing = true → (s w).pc.backing = true)
    (passed : ∀ c, pc.passed c → (s w).pc.passed c)
    (pending : ∀ i c, ¬ (s w).pc.Pending i c) :
    Inv maxSteal (Backoff.setPc w pc (Backoff.setLock i none s)) := by
  rw [setPc_setLock]
  have moved : Inv maxSteal (Backoff.setPc w pc s) := by
    apply inv.setPc _ hand backing (fun c _ _ seen => passed c seen)
      (fun j c sender => absurd sender (pending j c))
    intro j other
    rw [holds] at other
    cases other
  apply moved.setLock
  intro v keeps
  by_cases same : v = w
  · subst same
    rw [setPc_self] at keeps
    exact absurd (holds.symm.trans keeps) (by simp)
  · rw [setPc_other same] at keeps
    have twice := (inv.locks v i keeps).symm.trans (inv.locks w i held)
    exact absurd (Option.some.inj twice) same

theorem wake_other {v : ι} (other : v ≠ i) : wake i s v = s v := by
  rw [wake]
  split
  · simp [other]
  · rfl

theorem wake_lock (v : ι) : (wake i s v).lock = (s v).lock := by
  by_cases same : v = i
  · subst same
    rw [wake]
    split <;> simp
  · rw [wake_other same]

theorem Inv.wake (inv : Inv maxSteal s) : Inv maxSteal (Backoff.wake i s) := by
  rw [Backoff.wake]
  split
  case isTrue blocked =>
    apply inv.setPc <;> simp [blocked, Pc.holds, Pc.hand, Pc.backing, Pc.passed, Pc.Pending]
  case isFalse => exact inv

/-- Under the lock of a worker, after a signal, the worker is not about to wait: without the
lock it is not between the test and `pthread_cond_wait`, and if it was blocked it is woken. -/
theorem Inv.not_passed_wake (inv : Inv maxSteal s) (held : (s i).lock = some w) (differ : i ≠ w)
    (c : ℕ) : ¬ (Backoff.wake i s i).pc.passed c := by
  have free : (s i).pc.holds i ≠ some i := by
    intro own
    exact differ (Option.some.inj ((inv.locks i i own).symm.trans held))
  rw [Backoff.wake]
  split
  case isTrue => simp [Pc.passed]
  case isFalse running =>
    cases here : (s i).pc <;> simp_all [Pc.passed, Pc.holds]

theorem go_inv (inv : Inv maxSteal s) :
    Ensures (fun _ => True) (go maxSteal w s) (Inv maxSteal) := by
  have keeps := inv.locks w
  rw [go]
  cases here : (s w).pc with
  | run => trivial
  | lockSelf c =>
    simp only [ensures_bind, ensures_await, ensures_pure]
    intro free
    apply inv.acquire free rfl <;> simp [here, Pc.hand, Pc.backing, Pc.passed, Pc.Pending]
  | sendFailed c =>
    refine inv.own rfl ?_ ?_ ?_ ?_ ?_
    · simpa [here, Pc.holds] using keeps
    · intro done
      have away := inv.finished w done
      rw [here] at away
      cases away
    · exact fun going => (inv.ledger w going).sendFailed here
    · intro d _ _ seen
      exact absurd seen (Nat.not_lt_zero d)
    · intro i d sender
      simp [here, Pc.Pending] at sender
  | peek c =>
    simp only [ensures_ite, ensures_pure]
    refine ⟨fun _ => ⟨fun _ => ?_, fun empty => ?_⟩, fun all => ?_⟩
    · apply inv.setPc <;> simp_all [Pc.holds, Pc.hand, Pc.backing, Pc.passed, Pc.Pending]
    · apply inv.setPc <;> simp_all [Pc.holds, Pc.hand, Pc.backing, Pc.passed, Pc.Pending]
      intro d small full seen
      have upTo : d ≤ c := by omega
      rcases Nat.lt_or_eq_of_le upTo with before | rfl
      · exact before
      · exact absurd empty full
    · apply inv.setPc <;> simp_all [Pc.holds, Pc.hand, Pc.backing, Pc.passed, Pc.Pending]
      intro d small _
      omega
  | condWait =>
    apply inv.release <;> simp [here, Pc.holds, Pc.hand, Pc.backing, Pc.passed, Pc.Pending]
  | blocked =>
    apply inv.setPc <;> simp [here, Pc.holds, Pc.hand, Pc.backing, Pc.passed, Pc.Pending]
  | relock =>
    simp only [ensures_bind, ensures_await, ensures_pure]
    intro free
    apply inv.acquire free rfl <;> simp [here, Pc.hand, Pc.backing, Pc.passed, Pc.Pending]
  | unlockSelf =>
    apply inv.release <;> simp [here, Pc.holds, Pc.hand, Pc.backing, Pc.passed, Pc.Pending]
  | lockFor i c =>
    simp only [ensures_bind, ensures_await, ensures_pure]
    intro free
    apply inv.acquire free rfl <;> simp [here, Pc.hand, Pc.backing, Pc.passed, Pc.Pending]
  | signal i c =>
    have held : (s i).lock = some w := keeps i (by rw [here]; rfl)
    have woken := @Inv.wake _ _ _ _ i inv
    by_cases self : i = w
    · subst self
      have awake : wake i s = s := by simp [wake, here]
      change Inv maxSteal (setPc i (.unlockFor i) (wake i s))
      rw [awake]
      apply inv.setPc <;>
        simp_all [setPc_self, Pc.holds, Pc.hand, Pc.backing, Pc.passed, Pc.Pending]
    · have there := @wake_other _ _ s i w (Ne.symm self)
      apply woken.setPc
      · intro j own
        obtain rfl : i = j := Option.some.inj own
        rwa [wake_lock]
      · simp [Pc.hand]
      · simp [Pc.backing]
      · simp [Pc.passed]
      · intro j d sender
        rw [there, here] at sender
        obtain ⟨rfl, rfl⟩ : i = j ∧ c = d := by simpa [Pc.Pending] using sender
        rw [setPc_other self]
        exact .inr (inv.not_passed_wake held self c)
  | unlockFor i =>
    apply inv.release <;> simp [here, Pc.holds, Pc.hand, Pc.backing, Pc.passed, Pc.Pending]

/-- A thread that neither backs off nor signals changes what belongs to its worker. -/
theorem Inv.idle (inv : Inv maxSteal s) (idle : (s w).pc = .run) (still : y.pc = .run)
    (lock : y.lock = (s w).lock) (ledger : y.finished = false → Ledger maxSteal y) :
    Inv maxSteal (update s w y) := by
  apply inv.own lock
  · simp [still, Pc.holds]
  · simp [still, Pc.backing]
  · exact ledger
  · simp [still, Pc.passed]
  · simp [idle, Pc.Pending]

/-- A message for another worker, whose thread is anywhere. -/
theorem Inv.deliver (inv : Inv maxSteal s) (lock : y.lock = (s i).lock) (still : y.pc = (s i).pc)
    (finished : y.finished = (s i).finished) (ledger : (s i).finished = false → Ledger maxSteal y)
    (covered : ∀ c < maxSteal, y.chan c ≠ none → (s i).pc.passed c →
      (s i).chan c ≠ none ∨ ∃ v, (s v).pc.Pending i c) :
    Inv maxSteal (update s i y) := by
  apply inv.own lock
  · rw [still]
    exact inv.locks i
  · rw [still, finished]
    exact inv.finished i
  · rwa [finished]
  · intro c small full seen
    rw [still] at seen
    rcases covered c small full seen with before | sender
    · exact .inl ⟨before, seen⟩
    · exact .inr sender
  · intro j c sender
    rw [still]
    exact .inl sender

theorem Inv.send (inv : Inv maxSteal s) (idle : (s w).pc = .run) (other : i ≠ w) {c : ℕ}
    (lock : y.lock = (s i).lock) (still : y.pc = (s i).pc) (finished : y.finished = (s i).finished)
    (ledger : (s i).finished = false → Ledger maxSteal y)
    (others : ∀ d, d ≠ c → y.chan d = (s i).chan d) :
    Inv maxSteal (Backoff.setPc w (.lockFor i c) (update s i y)) := by
  have sender : Inv maxSteal (Backoff.setPc w (.lockFor i c) s) := by
    apply inv.setPc <;> simp [idle, Pc.holds, Pc.hand, Pc.backing, Pc.passed, Pc.Pending]
  have commute : Backoff.setPc w (.lockFor i c) (update s i y) =
      update (Backoff.setPc w (.lockFor i c) s) i y := by
    simp only [Backoff.setPc, update_of_ne other.symm]
    exact (update_comm other.symm _ _ s).symm
  have there : Backoff.setPc w (.lockFor i c) s i = s i := setPc_other other
  rw [commute]
  apply sender.deliver
  · rw [there, lock]
  · rw [there, still]
  · rw [there, finished]
  · rwa [there]
  · intro d _ full _
    by_cases same : d = c
    · subst same
      exact .inr ⟨w, by simp [setPc_self, Pc.Pending]⟩
    · rw [there, ← others d same]
      exact .inl full

theorem act_inv {parent : ι → Option ι} (inv : Inv maxSteal s) (idle : (s w).pc = .run)
    (move : Act ι) : Ensures (fun _ => True) (act maxSteal parent w s move) (Inv maxSteal) := by
  cases move with
  | request =>
    rw [act]
    cases top : (s w).stack with
    | nil => exact ensures_disabled
    | cons c rest =>
      simp only [ensures_bind, ensures_await, ensures_pure]
      intro _
      refine inv.idle idle idle rfl ?_
      exact fun going => (inv.ledger w going).request top idle
  | forget c =>
    simp only [act, ensures_bind, ensures_await, ensures_pure]
    intro made
    refine inv.idle idle idle rfl ?_
    exact fun going => (inv.ledger w going).takeBack made idle
  | receive c =>
    rw [act]
    cases full : (s w).chan c with
    | none => exact ensures_disabled
    | some m =>
      rw [ensures_pure]
      refine inv.idle idle idle rfl ?_
      intro going
      cases m with
      | exit => simp [Worker.receive] at going
      | task => exact (inv.ledger w (by simpa [Worker.receive] using going)).receive full idle
  | backOff c =>
    simp only [act, ensures_bind, ensures_await, ensures_pure]
    rintro ⟨going, -, made, last⟩
    refine inv.own rfl ?_ ?_ ?_ ?_ ?_
    · simp [Pc.holds]
    · simp [going]
    · exact fun going => (inv.ledger w going).backOff made last
    · simp [Pc.passed]
    · simp [idle, Pc.Pending]
  | reply i c =>
    simp only [act, ensures_bind, ensures_await, ensures_pure]
    rintro ⟨-, made⟩
    refine inv.deliver rfl rfl rfl ?_ ?_
    · exact fun going => (inv.ledger i going).answer made
    · -- a worker with a request that circulates is not about to wait
      intro d _ _ seen
      have backing : (s i).pc.backing = true := by
        cases here : (s i).pc <;> simp_all [Pc.passed, Pc.backing]
      cases done : (s i).finished with
      | true => exact absurd ((inv.finished i done).symm.trans backing) (by simp)
      | false => exact absurd made ((inv.ledger i done).backing backing c)
  | share i c =>
    simp only [act, ensures_bind, ensures_await, ensures_pure]
    rintro ⟨other, -, made⟩
    refine inv.send idle other rfl rfl rfl ?_ ?_
    · exact fun going => (inv.ledger i going).answer made
    · intro d differ
      simp [Worker.answer, differ]
  | exit i =>
    simp only [act, ensures_bind, ensures_await, ensures_check, ensures_pure]
    rintro ⟨other, -⟩
    refine ⟨fun empty => ?_, fun _ => trivial⟩
    refine inv.send idle other rfl rfl rfl ?_ ?_
    · exact fun going => (inv.ledger i going).exit
    · intro d differ
      simp [differ]
  | go => exact ensures_disabled

/-! ## Whole runs -/

omit [DecidableEq ι] in
theorem initial_inv : Inv maxSteal (initial maxSteal : State ι) where
  locks w i held := by cases held
  finished i done := by cases done
  ledger i _ := by
    refine ⟨?_, ?_, ?_, ?_, ?_, ?_⟩ <;> simp [initial, List.nodup_range, Pc.hand, Pc.backing]
  covered i c _ full := absurd rfl full

theorem reachable_inv {parent : ι → Option ι} (reached : (system maxSteal parent).Reachable s) :
    Inv maxSteal s := by
  refine reached.invariant ?_ ?_
  · rintro s rfl
    exact initial_inv
  · rintro s s' - inv ⟨⟨w, move⟩, moved⟩
    rw [step] at moved
    split at moved
    case isTrue idle => exact (act_inv inv idle move).value moved
    case isFalse =>
      have ensures : Ensures (fun _ => True) (do await (move = .go); go maxSteal w s)
          (Inv maxSteal) := by
        rw [ensures_bind, ensures_await]
        exact fun _ => go_inv inv
      exact ensures.value moved

/-- While a worker is blocked without a signal, each of its channels that is not empty
has a sender that has yet to signal. -/
theorem no_lost_wakeup {parent : ι → Option ι} (reached : (system maxSteal parent).Reachable s)
    (blocked : (s i).pc = .blocked) {c : ℕ} (channel : c < maxSteal)
    (message : (s i).chan c ≠ none) :
    ∃ w, w ≠ i ∧ ((s w).pc = .lockFor i c ∨ (s w).pc = .signal i c) := by
  have seen : (s i).pc.passed c := by rw [blocked]; trivial
  obtain ⟨w, sender⟩ := (reachable_inv reached).covered i c channel message seen
  refine ⟨w, ?_, sender⟩
  rintro rfl
  simp [blocked, Pc.Pending] at sender

/-- Worker `true` finds both channels empty and then waits; in between, its parent sends
a task. -/
def sendDuringPeek : List (Bool × Act Bool) :=
  [(true, .request), (true, .request), (true, .forget 0), (true, .backOff 1), (true, .go),
    (true, .go), (true, .go), (true, .go), (false, .share true 1), (true, .go), (true, .go)]

theorem no_lost_wakeup_during_peek : ∃ s : State Bool,
    (system 2 fun i => if i then some false else none).Reachable s ∧ (s true).pc = .blocked ∧
      (s true).chan 1 = some .task ∧
      ∃ w, w ≠ true ∧ ((s w).pc = .lockFor true 1 ∨ (s w).pc = .signal true 1) := by
  have reached := @System.follow_reachable _ _ _ (initial 2)
    (step 2 fun i : Bool => if i then some false else none) sendDuringPeek
  exact ⟨_, reached, by decide, by decide,
    no_lost_wakeup reached (by decide) (by decide) (by decide)⟩

end Invariant
end Tasking.Backoff
