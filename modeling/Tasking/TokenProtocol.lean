import Mathlib.Algebra.Order.Group.Multiset
import Mathlib.Data.Multiset.Range
import Mathlib.Tactic.Abel
import Tasking.RuntimeState
import Tasking.Transition

/-!
The protocol behind the steal requests, without the code that runs it.

A worker owns `M` task channels.  At any time each of them is free (on the
worker's stack), carried by a *token* (a steal request travelling through the
system), or holds an *answer* that the worker has not received yet.  A token sits
in a request channel, in the queue of a parent that holds on to it, or in the
hands of the worker that received it.  The steps below say how tokens move and
what they do to the worker's counters; tasks do not appear.
-/
namespace Tasking.TokenProtocol
open Tasking.Runtime (ReqState)

inductive Side where
  | left | right
  deriving DecidableEq

/-- The child of a worker on one side, whether or not that worker exists. -/
def child (w : ℕ) : Side → ℕ
  | .left => 2 * w + 1
  | .right => 2 * w + 2

inductive Place where
  | channel (i : ℕ)
  | queue (p : ℕ)
  | hand (h : ℕ)
  deriving DecidableEq

structure Token where
  owner : ℕ
  chan : ℕ
  state : ReqState
  deriving DecidableEq

/-- What the protocol knows of a worker.  It is busy unless it has run out of
tasks and looks for more. -/
structure Agent where
  busy : Bool
  waiting : Bool
  idle : Side → Bool
  requested : ℤ
  dropped : ℤ
  free : Multiset ℕ

structure State where
  agent : ℕ → Agent
  quiescent : Bool
  tokens : Multiset (Place × Token)
  answers : Multiset Token

namespace State

def live (a : State) : Multiset Token := a.tokens.map Prod.snd + a.answers

/-- The tokens and answers of one worker. -/
def of (a : State) (w : ℕ) : Multiset Token := a.live.filter fun r => r.owner = w

def set (a : State) (w : ℕ) (agent : Agent) : State :=
  { a with agent := Function.update a.agent w agent }

end State

/-- The guard under which a worker gives up on stealing: the token in its hand is
the last one, and everybody below it waits. -/
def LastToken (M : ℕ) (agent : Agent) (r : Token) : Prop :=
  r.state = .idle ∧ (∀ side, agent.idle side = true) ∧ agent.requested = M ∧
    agent.free.card + 1 = M

/-- A token of an idle worker may be marked as such when the worker receives it. -/
def Promotes (a : State) (w : ℕ) (r r' : Token) : Prop :=
  r' = r ∨ (r.owner = w ∧ r.state = .working ∧ (a.agent w).busy = false ∧
    r' = { r with state := .idle })

inductive Step (n M : ℕ) : State → State → Prop where
  /-- A new token is sent out. -/
  | post {a : State} {w v c : ℕ} {free : Multiset ℕ} {state : ReqState} (worker : w < n)
      (room : (a.agent w).requested < M) (taken : (a.agent w).free = c ::ₘ free)
      (fits : state = .working ∨ (state = .idle ∧ (a.agent w).busy = false)) :
      Step n M a { a.set w { a.agent w with
          requested := (a.agent w).requested + 1, free := free } with
        tokens := (.channel v, ⟨w, c, state⟩) ::ₘ a.tokens }
  /-- A token is received. -/
  | take {a : State} {w i : ℕ} {r r' : Token} {rest : Multiset (Place × Token)}
      (held : a.tokens = (.channel i, r) ::ₘ rest) (live : r.state ≠ .failed)
      (same : Promotes a w r r') :
      Step n M a { a with tokens := (.hand w, r') ::ₘ rest }
  /-- A parent receives a token of a child that gave up, and holds on to it. -/
  | adopt {a : State} {w : ℕ} {side : Side} {r : Token} {rest : Multiset (Place × Token)}
      (worker : w < n) (held : a.tokens = (.channel w, r) ::ₘ rest) (failed : r.state = .failed)
      (below : r.owner = child w side) :
      Step n M a { a.set w { a.agent w with
          idle := Function.update (a.agent w).idle side true } with
        tokens := (.queue w, r) ::ₘ rest }
  /-- A token is passed on. -/
  | relay {a : State} {w v : ℕ} {r : Token} {rest : Multiset (Place × Token)}
      (held : a.tokens = (.hand w, r) ::ₘ rest) :
      Step n M a { a with tokens := (.channel v, r) ::ₘ rest }
  /-- The owner discards a token it does not need any more. -/
  | forget {a : State} {w : ℕ} {r : Token} {rest : Multiset (Place × Token)}
      (worker : w < n) (held : a.tokens = (.hand w, r) ::ₘ rest) (own : r.owner = w) :
      Step n M a { a.set w { a.agent w with
          requested := (a.agent w).requested - 1, free := r.chan ::ₘ (a.agent w).free } with
        tokens := rest }
  /-- The owner withdraws a token without making room for a new one. -/
  | drop {a : State} {w : ℕ} {r : Token} {rest : Multiset (Place × Token)}
      (worker : w < n) (held : a.tokens = (.hand w, r) ::ₘ rest) (own : r.owner = w)
      (idle : r.state = .idle) (more : ¬ LastToken M (a.agent w) r)
      (below : ∀ side, (a.agent w).idle side = true) :
      Step n M a { a.set w { a.agent w with
          dropped := (a.agent w).dropped + 1, free := r.chan ::ₘ (a.agent w).free } with
        tokens := rest }
  /-- The owner sends its last token to its parent and waits. -/
  | retire {a : State} {w p : ℕ} {r : Token} {rest : Multiset (Place × Token)}
      (worker : w < n) (held : a.tokens = (.hand w, r) ::ₘ rest) (own : r.owner = w)
      (last : LastToken M (a.agent w) r) (climbs : WorkerTree.parent w = some p) :
      Step n M a { a.set w { a.agent w with waiting := true } with
        tokens := (.channel p, { r with state := .failed }) ::ₘ rest }
  /-- The master holds its last token: everything has terminated. -/
  | detect {a : State} {r : Token} {rest : Multiset (Place × Token)}
      (worker : 0 < n) (held : a.tokens = (.hand 0, r) ::ₘ rest) (own : r.owner = 0)
      (last : LastToken M (a.agent 0) r) :
      Step n M a { a.set 0 { a.agent 0 with
          busy := true, requested := (a.agent 0).requested - 1
          free := r.chan ::ₘ (a.agent 0).free } with
        quiescent := true, tokens := rest }
  /-- Tasks are sent for a token in the hand of a busy worker. -/
  | answer {a : State} {w : ℕ} {r : Token} {rest : Multiset (Place × Token)}
      (worker : w < n) (held : a.tokens = (.hand w, r) ::ₘ rest) (busy : (a.agent w).busy = true)
      (awake : w = 0 → a.quiescent = false) :
      Step n M a { a with tokens := rest, answers := r ::ₘ a.answers }
  /-- Tasks are sent to a child that waits for them. -/
  | share {a : State} {w : ℕ} {side : Side} {r : Token} {rest : Multiset (Place × Token)}
      (worker : w < n) (held : a.tokens = (.queue w, r) ::ₘ rest) (below : r.owner = child w side)
      (busy : (a.agent w).busy = true) (awake : w = 0 → a.quiescent = false) :
      Step n M a { a.set w { a.agent w with
          idle := Function.update (a.agent w).idle side false } with
        tokens := rest, answers := r ::ₘ a.answers }
  /-- Tasks are received.  A worker that waited starts over; any other makes room
  for the tokens it dropped. -/
  | receive {a : State} {w : ℕ} {r : Token} {rest : Multiset Token}
      (worker : w < n) (held : a.answers = r ::ₘ rest) (own : r.owner = w) :
      Step n M a { a.set w { a.agent w with
          busy := true, waiting := false, dropped := 0
          requested := (if (a.agent w).waiting then 1
            else (a.agent w).requested - (a.agent w).dropped) - 1
          free := r.chan ::ₘ (a.agent w).free } with
        answers := rest }
  /-- A worker runs out of tasks. -/
  | rest {a : State} {w : ℕ} (worker : w < n) (awake : w = 0 → a.quiescent = false) :
      Step n M a (a.set w { a.agent w with busy := false })
  /-- The master creates a task. -/
  | resume {a : State} : Step n M a { a with quiescent := false }
  /-- A single worker needs no detection. -/
  | alone {a : State} (single : n = 1) : Step n M a { a with quiescent := true }

def State.init (n M : ℕ) : State where
  agent w :=
    { busy := true, waiting := false, idle := fun side => decide (n ≤ child w side)
      requested := 0, dropped := 0, free := Multiset.range M }
  quiescent := false
  tokens := 0
  answers := 0

def system (n M : ℕ) : Transition.System State where
  init a := a = State.init n M
  step := Step n M

/-! ## The account of one worker -/

/-- What holds of a worker and its own tokens and answers. -/
structure Account (M : ℕ) (agent : Agent) (mine : Multiset Token) : Prop where
  /-- Every channel is in exactly one of the three places. -/
  channels : agent.free + mine.map Token.chan = Multiset.range M
  counters : agent.requested + agent.free.card = M + agent.dropped
  dropped_nonneg : 0 ≤ agent.dropped
  dropped_lt : agent.dropped < M
  requested_le : agent.requested ≤ M
  /-- A busy worker has at least one token that still says so, or room for one:
  tokens that call it idle are stale, and they are never all of them. -/
  stale : agent.busy = true →
    ((mine.filter fun r => r.state ≠ .working).card : ℤ) + agent.dropped < M
  waits : agent.waiting = true → agent.busy = false ∧ agent.requested = M ∧
    agent.dropped + 1 = M ∧ ∀ r ∈ mine, r.state = .failed
  failed : ∀ r ∈ mine, r.state = .failed → agent.waiting = true

namespace Account

variable {M : ℕ} {agent : Agent} {mine rest : Multiset Token} {r : Token}

theorem card_free (acc : Account M agent mine) : agent.free.card + mine.card = M := by
  simpa using congrArg Multiset.card acc.channels

theorem live_eq (acc : Account M agent mine) :
    agent.requested - agent.dropped = (mine.card : ℤ) := by
  have total := acc.card_free
  have counters := acc.counters
  omega

theorem chan_lt (acc : Account M agent mine) (member : r ∈ mine) : r.chan < M := by
  have inRange : r.chan ∈ agent.free + mine.map Token.chan :=
    Multiset.mem_add.mpr (.inr (Multiset.mem_map_of_mem _ member))
  rw [acc.channels] at inRange
  exact Multiset.mem_range.mp inRange

/-- No two tokens carry the same channel. -/
theorem chan_unique (acc : Account M agent (r ::ₘ rest)) : r.chan ∉ rest.map Token.chan := by
  have nodup : (agent.free + (r ::ₘ rest).map Token.chan).Nodup := by
    rw [acc.channels]
    exact Multiset.nodup_range M
  have mineNodup := (Multiset.nodup_add.mp nodup).2.1
  rw [Multiset.map_cons] at mineNodup
  exact (Multiset.nodup_cons.mp mineNodup).1

/-- A waiting worker has exactly one token or answer left. -/
theorem waiting_single (acc : Account M agent mine) (waiting : agent.waiting = true) :
    mine.card = 1 := by
  obtain ⟨-, requested, dropped, -⟩ := acc.waits waiting
  have live := acc.live_eq
  omega

/-- The account does not depend on what the worker knows of its subtrees. -/
theorem withIdle (acc : Account M agent mine) (idle : Side → Bool) :
    Account M { agent with idle := idle } mine :=
  ⟨acc.channels, acc.counters, acc.dropped_nonneg, acc.dropped_lt, acc.requested_le, acc.stale,
    acc.waits, acc.failed⟩

/-- A worker that gives up on stealing is not busy, and holds its only token. -/
theorem last (acc : Account M agent (r ::ₘ rest)) (last : LastToken M agent r) :
    agent.busy = false ∧ rest = 0 ∧ agent.dropped + 1 = M := by
  obtain ⟨idle, -, requested, freeCard⟩ := last
  have counters := acc.counters
  have dropped : agent.dropped + 1 = M := by omega
  have total := acc.card_free
  rw [Multiset.card_cons] at total
  refine ⟨?_, Multiset.card_eq_zero.mp (by omega), dropped⟩
  by_contra busy
  have stale := acc.stale (by simpa using busy)
  rw [Multiset.filter_cons_of_pos _ (by simp [idle]), Multiset.card_cons] at stale
  push_cast at stale
  omega

theorem post {c : ℕ} {free : Multiset ℕ} {state : ReqState} {w : ℕ} (acc : Account M agent mine)
    (room : agent.requested < M) (taken : agent.free = c ::ₘ free)
    (fits : state = .working ∨ (state = .idle ∧ agent.busy = false)) :
    Account M { agent with requested := agent.requested + 1, free := free }
      (⟨w, c, state⟩ ::ₘ mine) := by
  have counters := acc.counters
  rw [taken, Multiset.card_cons] at counters
  push_cast at counters
  have notWaiting : agent.waiting = false := by
    by_contra waiting
    have full := (acc.waits (by simpa using waiting)).2.1
    omega
  refine ⟨?_, ?_, acc.dropped_nonneg, acc.dropped_lt, ?_, ?_, ?_, ?_⟩
  · rw [← acc.channels, taken, Multiset.map_cons, Multiset.cons_add, Multiset.add_cons]
  · simp only
    omega
  · simp only
    omega
  · intro busy
    rcases fits with rfl | ⟨-, idle⟩
    · rw [Multiset.filter_cons_of_neg _ (by simp)]
      exact acc.stale busy
    · rw [idle] at busy
      cases busy
  · intro waiting
    rw [notWaiting] at waiting
    cases waiting
  · intro r member failed
    rcases Multiset.mem_cons.mp member with rfl | member
    · rcases fits with rfl | ⟨rfl, -⟩ <;> cases failed
    · exact acc.failed r member failed

theorem promote (acc : Account M agent (r ::ₘ rest)) (working : r.state = .working)
    (idle : agent.busy = false) : Account M agent ({ r with state := .idle } ::ₘ rest) := by
  refine ⟨?_, acc.counters, acc.dropped_nonneg, acc.dropped_lt, acc.requested_le, ?_, ?_, ?_⟩
  · simpa using acc.channels
  · intro busy
    rw [idle] at busy
    cases busy
  · intro waiting
    have failed := (acc.waits waiting).2.2.2 r (Multiset.mem_cons_self _ _)
    rw [working] at failed
    cases failed
  · intro token member failed
    rcases Multiset.mem_cons.mp member with rfl | member
    · cases failed
    · exact acc.failed token (Multiset.mem_cons_of_mem member) failed

private theorem channels_return (acc : Account M agent (r ::ₘ rest)) :
    r.chan ::ₘ agent.free + rest.map Token.chan = Multiset.range M := by
  rw [← acc.channels, Multiset.map_cons, Multiset.cons_add, Multiset.add_cons]

/-- A token that is not failed belongs to a worker that does not wait. -/
theorem not_waiting (acc : Account M agent (r ::ₘ rest)) (live : r.state ≠ .failed) :
    agent.waiting = false := by
  by_contra waiting
  exact live ((acc.waits (by simpa using waiting)).2.2.2 r (Multiset.mem_cons_self _ _))

private theorem stale_rest (acc : Account M agent (r ::ₘ rest)) (busy : agent.busy = true) :
    ((rest.filter fun r => r.state ≠ .working).card : ℤ) + agent.dropped < M := by
  have stale := acc.stale busy
  have fewer := Multiset.card_le_card
    (Multiset.filter_le_filter (fun r : Token => r.state ≠ .working) (Multiset.le_cons_self rest r))
  omega

private theorem requested_pos (acc : Account M agent (r ::ₘ rest)) :
    agent.dropped + 1 ≤ agent.requested := by
  have live := acc.live_eq
  rw [Multiset.card_cons] at live
  push_cast at live
  omega

theorem forget (acc : Account M agent (r ::ₘ rest)) (live : r.state ≠ .failed) :
    Account M { agent with requested := agent.requested - 1, free := r.chan ::ₘ agent.free }
      rest := by
  have counters := acc.counters
  have bound := acc.requested_le
  refine ⟨acc.channels_return, ?_, acc.dropped_nonneg, acc.dropped_lt, ?_, acc.stale_rest, ?_, ?_⟩
  · simp only [Multiset.card_cons]
    push_cast
    omega
  · simp only
    omega
  · intro waiting
    rw [acc.not_waiting live] at waiting
    cases waiting
  · exact fun token member => acc.failed token (Multiset.mem_cons_of_mem member)

theorem drop (acc : Account M agent (r ::ₘ rest)) (idle : r.state = .idle)
    (below : ∀ side, agent.idle side = true) (more : ¬ LastToken M agent r) :
    Account M { agent with dropped := agent.dropped + 1, free := r.chan ::ₘ agent.free } rest := by
  have counters := acc.counters
  have positive := acc.requested_pos
  have bound := acc.requested_le
  have low := acc.dropped_nonneg
  have high := acc.dropped_lt
  -- Were this the last token the worker would give up instead.
  have spare : agent.dropped + 1 < M := by
    by_contra full
    exact more ⟨idle, below, by omega, by omega⟩
  refine ⟨acc.channels_return, ?_, ?_, spare, bound, ?_, ?_, ?_⟩
  · simp only [Multiset.card_cons]
    push_cast
    omega
  · simp only
    omega
  · intro busy
    have stale := acc.stale busy
    rw [Multiset.filter_cons_of_pos _ (by simp [idle]), Multiset.card_cons] at stale
    push_cast at stale
    simp only
    omega
  · intro waiting
    rw [acc.not_waiting (by simp [idle])] at waiting
    cases waiting
  · exact fun token member => acc.failed token (Multiset.mem_cons_of_mem member)

theorem retire (acc : Account M agent (r ::ₘ rest)) (last : LastToken M agent r) :
    Account M { agent with waiting := true } ({ r with state := .failed } ::ₘ rest) := by
  obtain ⟨idle, alone, dropped⟩ := acc.last last
  subst alone
  refine ⟨?_, acc.counters, acc.dropped_nonneg, acc.dropped_lt, acc.requested_le, ?_, ?_, ?_⟩
  · simpa using acc.channels
  · intro busy
    rw [idle] at busy
    cases busy
  · intro _
    exact ⟨idle, last.2.2.1, dropped, by simp⟩
  · exact fun _ _ _ => rfl

theorem detect (acc : Account M agent (r ::ₘ rest)) (last : LastToken M agent r) :
    Account M { agent with
      busy := true, requested := agent.requested - 1, free := r.chan ::ₘ agent.free } rest := by
  have live : r.state ≠ .failed := by simp [last.1]
  obtain ⟨-, alone, dropped⟩ := acc.last last
  subst alone
  obtain ⟨channels, counters, low, high, bound, -, waits, failed⟩ := acc.forget live
  refine ⟨channels, counters, low, high, bound, ?_, ?_, failed⟩
  · intro _
    simp only [Multiset.filter_zero, Multiset.card_zero]
    push_cast
    omega
  · intro waiting
    have notWaiting := acc.not_waiting live
    simp only [notWaiting] at waiting
    cases waiting

theorem receive (acc : Account M agent (r ::ₘ rest)) :
    Account M { agent with
      busy := true, waiting := false, dropped := 0
      requested := (if agent.waiting then 1 else agent.requested - agent.dropped) - 1
      free := r.chan ::ₘ agent.free } rest := by
  have counters := acc.counters
  have low := acc.dropped_nonneg
  have high := acc.dropped_lt
  have total := acc.card_free
  rw [Multiset.card_cons] at total
  have live := acc.live_eq
  rw [Multiset.card_cons] at live
  push_cast at live
  have requested : (if agent.waiting then (1 : ℤ) else agent.requested - agent.dropped) - 1 =
      (rest.card : ℤ) := by
    split
    · next waiting =>
      have single := acc.waiting_single waiting
      rw [Multiset.card_cons] at single
      omega
    · omega
  refine ⟨acc.channels_return, ?_, le_refl 0, ?_, ?_, ?_, ?_, ?_⟩
  · simp only [Multiset.card_cons, requested]
    push_cast
    omega
  · simp only
    omega
  · simp only [requested]
    omega
  · intro _
    have fewer := Multiset.card_le_card
      (Multiset.filter_le (fun r : Token => r.state ≠ .working) rest)
    simp only
    omega
  · intro waiting
    cases waiting
  · intro token member failed
    -- A failed token makes its owner wait, and then it is the only one.
    have waiting := acc.failed token (Multiset.mem_cons_of_mem member) failed
    have single := acc.waiting_single waiting
    rw [Multiset.card_cons] at single
    obtain rfl : rest = 0 := Multiset.card_eq_zero.mp (by omega)
    simp at member

theorem goIdle (acc : Account M agent mine) : Account M { agent with busy := false } mine :=
  ⟨acc.channels, acc.counters, acc.dropped_nonneg, acc.dropped_lt, acc.requested_le,
    (fun busy => nomatch busy),
    fun waiting => ⟨rfl, (acc.waits waiting).2⟩, acc.failed⟩

end Account

end Tasking.TokenProtocol
