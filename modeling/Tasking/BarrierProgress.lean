import Mathlib.Data.Finset.Max
import Mathlib.Data.Prod.Lex
import Tasking.IdleSearch

/-!
`RT_barrier` can always return once all tasks are done.

Fairness alone does not make it return: a worker whose own channel is never empty does not
look into those of workers that have backed off, so a request that sits there may starve.
What holds is that no reachable state is a dead end: from every state in which all tasks have
finished and the master is in `RT_barrier`, the workers can go on in such a way that the
barrier returns.

One worker after the other is run until it has drained the channels it looks after (`drain`).
This ends because every event lowers the worker's `load`.  The last worker that is awake, all
of whose subtree waits, is run first; then its requests are followed from worker to worker.
Each time one is passed on it has fewer attempts left (`pending`), until it is back and the
worker retires, or, if it is the master, detects termination.
-/
namespace Tasking.Runtime
open Fallible Family TokenProtocol WorkerTree Function Relation

/-! ## What a worker has ahead -/

/-- The requests in the channels a worker may take them from. -/
def backlog (cfg : Config) (u : ℕ) (n : Node) : ℕ :=
  ((region cfg u n.self).map fun i => (n.net.chanRequests i).length).sum

/-- The number of subtrees not known to be idle.  Without tasks to give away a worker takes no
flag back, so that it never rises. -/
def Worker.blindness (x : Worker) : ℕ :=
  (!x.leftSubtreeIsIdle).toNat + (!x.rightSubtreeIsIdle).toNat

/-- The requests a worker may still send, once it is settled.  Before that it is more than can
ever be left, so that settling lowers it. -/
def sendGap (cfg : Config) (x : Worker) : ℕ :=
  if x.pc.settled then (cfg.maxSteal - x.requested).toNat else cfg.maxSteal + 1

/-- Every event of a worker makes this smaller: it may find out that another subtree is idle,
then send its requests, and then get rid of those it finds. -/
def load (cfg : Config) (u : ℕ) (n : Node) : ℕ ×ₗ ℕ ×ₗ ℕ ×ₗ ℕ :=
  toLex ((n.self.pc.unmarked u).toNat, toLex (n.self.blindness, toLex (sendGap cfg n.self,
    2 * backlog cfg u n + n.self.pc.hand.toList.length)))

theorem lex_lt {a b c d a' b' c' d' : ℕ}
    (lower : a' < a ∨ a' = a ∧ (b' < b ∨ b' = b ∧ (c' < c ∨ c' = c ∧ d' < d))) :
    (toLex (a', toLex (b', toLex (c', d'))) : ℕ ×ₗ ℕ ×ₗ ℕ ×ₗ ℕ) <
      toLex (a, toLex (b, toLex (c, d))) := by
  simpa [Prod.Lex.toLex_lt_toLex] using lower

section Load

variable {cfg : Config} {u v i : ℕ} {n n' : Node} {x : Worker} {net : Network}
  {req req' : StealRequest} {rest : List StealRequest}

theorem mem_region (member : i ∈ region cfg u x) : i = u ∨ i < cfg.numWorkers ∧ x.SeesIdle u i := by
  rcases List.mem_cons.mp member with own | behalf
  · exact .inl own
  · obtain ⟨inside, side, flag, -, below⟩ := onBehalf_scanOk cfg u x .poll i behalf
    exact .inr ⟨inside, side, flag, below⟩

/-- A request that is passed on goes to a channel its handler does not look after, so that it is
out of the handler's backlog. -/
theorem Chosen.outside (chosen : Chosen cfg u x req v req')
    (home : v = req.ID → v ≠ u ∧ ¬ x.SeesIdle u v) : v ∉ region cfg u x := by
  intro member
  have away : v ≠ u ∧ ¬ x.SeesIdle u v := by
    by_cases limit : req.tries = cfg.maxStealAttempts
    · exact home (chosen.limit limit)
    · rcases chosen.choice with back | potential
      · exact home back
      · exact ((chosen.pruned limit v chosen.target).mp potential).2
  rcases mem_region member with own | ⟨-, seen⟩
  · exact away.1 own
  · exact away.2 seen

theorem backlog_push (outside : v ∉ region cfg u x) :
    backlog cfg u ⟨x, net.pushRequest v req⟩ = backlog cfg u ⟨x, net⟩ := by
  refine congrArg List.sum (List.map_congr_left fun i member => ?_)
  have other : i ≠ v := fun same => outside (same ▸ member)
  simp only [Network.pushRequest, update_of_ne other]

theorem backlog_drop (mine : i ∈ region cfg u x) (first : net.chanRequests i = req :: rest) :
    backlog cfg u ⟨x, net.dropRequest i⟩ < backlog cfg u ⟨x, net⟩ := by
  refine List.sum_lt_sum _ _ (fun j _ => ?_) ⟨i, mine, ?_⟩
  · simp only [Network.dropRequest]
    by_cases same : j = i
    · subst same
      simp
    · rw [update_of_ne same]
  · simp [Network.dropRequest, first]

/-- What has to be shown, for an event after which nothing in the worker's hand is unmarked. -/
theorem load_lt_of (marked : n'.self.pc.unmarked u = false)
    (lower : n.self.pc.unmarked u = true ∨ n'.self.blindness < n.self.blindness ∨
      n'.self.blindness = n.self.blindness ∧ (sendGap cfg n'.self < sendGap cfg n.self ∨
        sendGap cfg n'.self = sendGap cfg n.self ∧
          2 * backlog cfg u n' + n'.self.pc.hand.toList.length <
            2 * backlog cfg u n + n.self.pc.hand.toList.length)) :
    load cfg u n' < load cfg u n := by
  refine lex_lt ?_
  rw [marked]
  cases unmarked : n.self.pc.unmarked u with
  | true => exact .inl Nat.zero_lt_one
  | false => exact .inr ⟨rfl, lower.resolve_left (by simp [unmarked])⟩

theorem Pc.unmarked_of_own {pc : Pc} (hand : pc.hand = some req) (settled : pc.settled = true)
    (own : req.ID = u) (stale : req.state ≠ .idle) : pc.unmarked u = true := by
  cases pc with
  | handle k other =>
    cases hand
    cases k with
    | declineAll site => simpa [Pc.unmarked] using ⟨own, stale⟩
    | _ => cases settled
  | _ => cases hand

theorem blindness_congr {x' : Worker} (flags : ∀ side, x'.flag side = x.flag side) :
    x'.blindness = x.blindness := by
  have left : x'.leftSubtreeIsIdle = x.leftSubtreeIsIdle := flags .left
  have right : x'.rightSubtreeIsIdle = x.rightSubtreeIsIdle := flags .right
  rw [Worker.blindness, Worker.blindness, left, right]

theorem blindness_lt {x' : Worker} {side : Side} (before : x.flag side = false)
    (flags : ∀ other, x'.flag other = true ↔ other = side ∨ x.flag other = true) :
    x'.blindness < x.blindness := by
  cases side with
  | left =>
    have left : x'.leftSubtreeIsIdle = true := (flags .left).mpr (.inl rfl)
    have right : x'.rightSubtreeIsIdle = x.rightSubtreeIsIdle := by
      simpa [Worker.flag, ← Bool.eq_iff_iff] using flags .right
    have before : x.leftSubtreeIsIdle = false := before
    simp [Worker.blindness, left, right, before]
  | right =>
    have right : x'.rightSubtreeIsIdle = true := (flags .right).mpr (.inl rfl)
    have left : x'.leftSubtreeIsIdle = x.leftSubtreeIsIdle := by
      simpa [Worker.flag, ← Bool.eq_iff_iff] using flags .left
    have before : x.rightSubtreeIsIdle = false := before
    simp [Worker.blindness, left, right, before]

/-- Declining the request in its hand makes the worker's load smaller, unless it retires. -/
theorem Declines.load_lt {n₁ : Node} {pc : Pc} (declines : Declines cfg u req n n₁)
    (hand : n.self.pc.hand = some req) (free : pc.hand = none)
    (settled : pc.settled = n.self.pc.settled)
    (loud : pc.settled = true → u = 0 → n₁.self.quiescent = false)
    (foreign : ¬ n.self.SeesIdle u req.ID) :
    n.self.waitingForTasks = false ∧ n₁.self.waitingForTasks = true ∨
      n₁.self.waitingForTasks = n.self.waitingForTasks ∧
        load cfg u (n₁.goto pc) < load cfg u n := by
  have lower (requested : pc.settled = true → n.self.pc.unmarked u = true ∨
        n₁.self.requested = n.self.requested) (flags : ∀ side, n₁.self.flag side = n.self.flag side)
      (backlogs : backlog cfg u (n₁.goto pc) = backlog cfg u n) :
      load cfg u (n₁.goto pc) < load cfg u n := by
    refine load_lt_of (Pc.unmarked_of_hand free) ?_
    have counts : (n₁.goto pc).self.pc.hand.toList.length < n.self.pc.hand.toList.length := by
      simp [Node.goto, free, hand]
    by_cases stale : n.self.pc.unmarked u = true
    · exact .inl stale
    · have gaps : sendGap cfg (n₁.goto pc).self = sendGap cfg n.self := by
        simp only [sendGap, Node.goto, settled]
        split
        · next inLoop => rw [(requested (settled.trans inLoop)).resolve_left stale]
        · rfl
      refine .inr (.inr ⟨blindness_congr flags, .inr ⟨gaps, ?_⟩⟩)
      omega
  cases declines with
  | passes other chosen =>
    refine .inr ⟨rfl, lower (fun _ => .inr rfl) (fun _ => rfl) (backlog_push (chosen.outside ?_))⟩
    rintro rfl
    exact ⟨other, foreign⟩
  | restarts own busy away chosen =>
    refine .inr ⟨rfl, lower (fun _ => .inr rfl) (fun _ => rfl) (backlog_push (chosen.outside ?_))⟩
    exact fun back => absurd (back.trans own) away
  | forgets own working =>
    refine .inr ⟨rfl, lower (fun inLoop => .inl ?_) (fun _ => rfl) rfl⟩
    exact Pc.unmarked_of_own hand (settled.symm.trans inLoop) own (by simp [working])
  | drops own => exact .inr ⟨rfl, lower (fun _ => .inr rfl) (fun _ => rfl) rfl⟩
  | retires own other awake => exact .inl ⟨awake, rfl⟩
  | detects own master =>
    refine .inr ⟨rfl, lower (fun inLoop => ?_) (fun _ => rfl) rfl⟩
    exact absurd (loud inLoop master) (by simp)

/-- Every event makes the worker's load smaller, unless `RT_barrier` is left or the worker
retires. -/
theorem SearchEvent.load_lt (event : SearchEvent cfg u n n')
    (foreign : ∀ req, n.self.pc.hand = some req → ¬ n.self.SeesIdle u req.ID)
    (nonneg : 0 ≤ n'.self.requested) :
    (u = 0 ∧ n'.self.pc = .barrierExit) ∨
      (n.self.waitingForTasks = false ∧ n'.self.waitingForTasks = true) ∨
      n'.self.waitingForTasks = n.self.waitingForTasks ∧ load cfg u n' < load cfg u n := by
  cases event with
  | leaves master here => exact .inl ⟨master, here⟩
  | adopts first failed before flags queue requested waiting free here settled after =>
    exact .inr (.inr ⟨waiting, load_lt_of (Pc.unmarked_of_hand here)
      (.inr (.inl (blindness_lt before flags)))⟩)
  | @takes i req taken rest k mine first live same free marked settled after =>
    subst after
    refine .inr (.inr ⟨rfl, load_lt_of marked (.inr (.inr ⟨rfl, .inr ⟨?_, ?_⟩⟩))⟩)
    · simp only [sendGap, Node.goto, settled]
    · -- the request moves from a channel into the worker's hand
      have fewer : backlog cfg u ⟨n.self, n.net.dropRequest i⟩ < backlog cfg u n :=
        backlog_drop mine first
      change 2 * backlog cfg u ⟨n.self, n.net.dropRequest i⟩ + [taken].length < _
      rw [free, Option.toList_none, List.length_nil, List.length_singleton]
      omega
  | handles hand declines after free settled loud =>
    subst after
    exact .inr (declines.load_lt hand free settled loud (foreign _ hand))
  | sends target own keeps room requested waiting free here settled after =>
    refine .inr (.inr ⟨waiting, load_lt_of (Pc.unmarked_of_hand here)
      (.inr (.inr ⟨blindness_congr keeps.flags, .inl ?_⟩))⟩)
    simp only [sendGap, settled, ↓reduceIte]
    split <;> omega
  | enters free here before settled after =>
    subst after
    refine .inr (.inr ⟨rfl, load_lt_of (Pc.unmarked_of_hand here)
      (.inr (.inr ⟨rfl, .inl ?_⟩))⟩)
    have room : 0 ≤ n.self.requested := nonneg
    simp only [sendGap, Node.goto, settled, before, ↓reduceIte, Bool.false_eq_true]
    omega

end Load

/-! ## The attempts that are left -/

/-- How often the requests of worker `w` among these may still be passed on. -/
def attemptsLeft (cfg : Config) (w : ℕ) (reqs : Multiset StealRequest) : ℕ :=
  ((reqs.filter fun req => req.ID = w).map fun req => cfg.maxStealAttempts + 1 - req.tries).sum

def Network.requests (cfg : Config) (net : Network) : Multiset StealRequest :=
  gather cfg.numWorkers fun i => (net.chanRequests i : Multiset StealRequest)

/-- The requests a worker holds on to, and the one in its hand. -/
def Worker.requests (x : Worker) : Multiset StealRequest :=
  (x.workSharingRequests : Multiset StealRequest) + (x.pc.hand.toList : Multiset StealRequest)

def Node.requests (cfg : Config) (n : Node) : Multiset StealRequest :=
  n.net.requests cfg + n.self.requests

def State.pending (cfg : Config) (w : ℕ) (s : State) : ℕ := attemptsLeft cfg w (s.requests cfg)

/-- A worker that has sent all its requests and knows that everybody below it is idle: it will
not send one out again. -/
structure Ready (cfg : Config) (u : ℕ) (x : Worker) : Prop where
  settled : x.pc.settled = true
  full : ¬ x.requested < cfg.maxSteal
  flags : ∀ side, x.flag side = true
  marked : x.pc.unmarked u = false

section Attempts

variable {cfg : Config} {s : State} {u v w i : ℕ} {n n' : Node} {x : Worker} {net : Network}
  {req req' : StealRequest} {rest : List StealRequest} {reqs reqs' : Multiset StealRequest}

theorem attemptsLeft_add :
    attemptsLeft cfg w (reqs + reqs') = attemptsLeft cfg w reqs + attemptsLeft cfg w reqs' := by
  simp [attemptsLeft]

theorem attemptsLeft_own (own : req.ID = w) : attemptsLeft cfg w (req ::ₘ reqs) =
    (cfg.maxStealAttempts + 1 - req.tries) + attemptsLeft cfg w reqs := by
  simp [attemptsLeft, own]

theorem attemptsLeft_other (other : req.ID ≠ w) :
    attemptsLeft cfg w (req ::ₘ reqs) = attemptsLeft cfg w reqs := by
  simp [attemptsLeft, other]

/-- Another request takes its place. -/
theorem attemptsLeft_replace (sender : req'.ID = req.ID) (tries : req'.tries = req.tries) :
    attemptsLeft cfg w (req' ::ₘ reqs) = attemptsLeft cfg w (req ::ₘ reqs) := by
  by_cases own : req.ID = w
  · rw [attemptsLeft_own own, attemptsLeft_own (sender.trans own), tries]
  · rw [attemptsLeft_other own, attemptsLeft_other (sender.trans_ne own)]

theorem requests_pushRequest (target : v < cfg.numWorkers) :
    (net.pushRequest v req).requests cfg = req ::ₘ net.requests cfg := by
  have after := gather_update
    (h := fun _ (reqs : List StealRequest) => (reqs : Multiset StealRequest))
    (c := net.chanRequests) (y := net.chanRequests v ++ [req]) target
  have before := gather_split (f := fun i => (net.chanRequests i : Multiset StealRequest)) target
  simp only [Network.requests, Network.pushRequest, after, before]
  rw [← Multiset.coe_add, add_right_comm, add_comm, Multiset.coe_singleton,
    Multiset.singleton_add]

theorem requests_dropRequest (inside : i < cfg.numWorkers)
    (first : net.chanRequests i = req :: rest) :
    net.requests cfg = req ::ₘ (net.dropRequest i).requests cfg := by
  have after := gather_update
    (h := fun _ (reqs : List StealRequest) => (reqs : Multiset StealRequest))
    (c := net.chanRequests) (y := (net.chanRequests i).tail) inside
  have before := gather_split (f := fun i => (net.chanRequests i : Multiset StealRequest)) inside
  simp only [Network.requests, Network.dropRequest, after, before]
  rw [first, List.tail_cons, ← Multiset.cons_coe, Multiset.cons_add]

/-- What the other workers hold does not change in a step of worker `u`. -/
theorem requests_put (worker : u < cfg.numWorkers) : ∃ others : Multiset StealRequest,
    s.requests cfg = (s.node u).requests cfg + others ∧
      ∀ n', (s.put u n').requests cfg = n'.requests cfg + others := by
  refine ⟨Family.others cfg.numWorkers (fun v => (s.workers v).requests) u, ?_, fun n' => ?_⟩
  · have split := gather_split (f := fun v => (s.workers v).requests) worker
    rw [Node.requests, add_assoc]
    exact congrArg (s.net.requests cfg + ·) split
  · have after := gather_update (h := fun _ (x : Worker) => x.requests)
      (c := s.workers) (y := n'.self) worker
    rw [Node.requests, add_assoc]
    exact congrArg (n'.net.requests cfg + ·) after

theorem requests_hand (hand : n.self.pc.hand = some req) :
    n.requests cfg = req ::ₘ (n.net.requests cfg + ↑n.self.workSharingRequests) := by
  rw [Node.requests, Worker.requests, hand, Option.toList_some, Multiset.coe_singleton, ← add_assoc,
    add_comm, Multiset.singleton_add]

theorem requests_free (free : n.self.pc.hand = none) :
    n.requests cfg = n.net.requests cfg + ↑n.self.workSharingRequests := by
  rw [Node.requests, Worker.requests, free, Option.toList_none, Multiset.coe_nil, add_zero]

/-- What a step of worker `u` does with the requests of worker `w`: it may pass one on or
drop it, and one that it has in its hand it gets rid of. -/
structure Attends (cfg : Config) (u w : ℕ) (n n' : Node) : Prop where
  attempts : attemptsLeft cfg w (n'.requests cfg) ≤ attemptsLeft cfg w (n.requests cfg)
  hand : ∀ req, n.self.pc.hand = some req → req.ID = w →
    attemptsLeft cfg w (n'.requests cfg) < attemptsLeft cfg w (n.requests cfg)
  channel : ∀ i, ∀ req ∈ n.net.chanRequests i, req.ID = w → req.state ≠ .failed →
    req ∈ n'.net.chanRequests i ∨ ∃ taken, n'.self.pc.hand = some taken ∧ taken.ID = w
  ready : w = u → Ready cfg u n'.self

theorem mem_push (member : req ∈ net.chanRequests i) :
    req ∈ (net.pushRequest v req').chanRequests i := by
  simp only [Network.pushRequest]
  by_cases same : i = v
  · subst same
    simp [member]
  · rwa [update_of_ne same]

/-- A request that is not the first of its channel stays there. -/
theorem mem_drop (first : net.chanRequests v = req' :: rest) (member : req ∈ net.chanRequests i) :
    req ∈ (net.dropRequest v).chanRequests i ∨ req = req' := by
  simp only [Network.dropRequest]
  by_cases same : i = v
  · subst same
    rw [first] at member
    simpa [first, or_comm] using member
  · rw [update_of_ne same]
    exact .inl member

/-- A ready worker has told its own request that it is idle. -/
theorem Ready.told (ready : Ready cfg u n.self) (hand : n.self.pc.hand = some req)
    (own : req.ID = u) : req.state = .idle := by
  by_contra stale
  exact absurd (Pc.unmarked_of_own hand ready.settled own stale) (by simp [ready.marked])

/-- The request in the worker's hand is declined, and the worker does not retire. -/
theorem Declines.attends {n₁ : Node} {pc : Pc} (declines : Declines cfg u req n n₁)
    (hand : n.self.pc.hand = some req) (inHand : InHand cfg u req) (free : pc.hand = none)
    (settled : pc.settled = n.self.pc.settled)
    (loud : pc.settled = true → u = 0 → n₁.self.quiescent = false)
    (stays : n₁.self.waitingForTasks = n.self.waitingForTasks)
    (ready : w = u → Ready cfg u n.self) : Attends cfg u w n (n₁.goto pc) := by
  have tries := inHand.sound.tries
  -- The request goes, and `more` takes its place.
  have replaced {more : Multiset StealRequest} (queue : n₁.self.workSharingRequests =
        n.self.workSharingRequests) (after : n₁.net.requests cfg = more + n.net.requests cfg)
      (fewer : attemptsLeft cfg w more ≤ attemptsLeft cfg w {req})
      (mine : req.ID = w → attemptsLeft cfg w more < attemptsLeft cfg w {req})
      (kept : ∀ i, ∀ other ∈ n.net.chanRequests i, other ∈ n₁.net.chanRequests i)
      (again : w = u → n₁.self.requested = n.self.requested ∧
        ∀ side, n₁.self.flag side = n.self.flag side) : Attends cfg u w n (n₁.goto pc) := by
    have left : attemptsLeft cfg w (n.requests cfg) = attemptsLeft cfg w {req} +
        attemptsLeft cfg w (n.net.requests cfg + ↑n.self.workSharingRequests) := by
      rw [requests_hand hand, ← Multiset.singleton_add, attemptsLeft_add]
    have right : attemptsLeft cfg w ((n₁.goto pc).requests cfg) = attemptsLeft cfg w more +
        attemptsLeft cfg w (n.net.requests cfg + ↑n.self.workSharingRequests) := by
      rw [requests_free free, show (n₁.goto pc).net = n₁.net from rfl, after,
        show (n₁.goto pc).self.workSharingRequests = _ from queue, add_assoc, attemptsLeft_add]
    refine ⟨by omega, fun other held sender => ?_,
      fun i other member _ _ => .inl (kept i other member), fun same => ?_⟩
    · obtain rfl : req = other := Option.some.inj (hand.symm.trans held)
      have := mine sender
      omega
    · obtain ⟨requested, flags⟩ := again same
      have was := ready same
      refine ⟨settled.trans was.settled, ?_, fun side => (flags side).trans (was.flags side),
        Pc.unmarked_of_hand free⟩
      exact requested ▸ was.full
  have single {other : StealRequest} (own : other.ID = w) : attemptsLeft cfg w {other} =
      cfg.maxStealAttempts + 1 - other.tries := by
    simp [attemptsLeft, Multiset.filter_singleton, own]
  have none {other : StealRequest} (away : other.ID ≠ w) : attemptsLeft cfg w {other} = 0 := by
    simp [attemptsLeft, Multiset.filter_singleton, away]
  cases declines with
  | @passes v req' other chosen =>
    have asked := inHand.asked other
    have after : (n.net.pushRequest v req').requests cfg = req' ::ₘ n.net.requests cfg :=
      requests_pushRequest chosen.target
    obtain ⟨sender, count⟩ : req'.ID = req.ID ∧ req'.tries = req.tries + 1 := by
      obtain ⟨victims, rfl⟩ := chosen.same
      exact ⟨rfl, rfl⟩
    have less (own : req.ID = w) : attemptsLeft cfg w {req'} < attemptsLeft cfg w {req} := by
      rw [single own, single (sender.trans own)]
      omega
    refine replaced rfl (after.trans (Multiset.singleton_add _ _).symm) ?_ less
      (fun i other member => mem_push member) fun _ => ⟨rfl, fun _ => rfl⟩
    by_cases own : req.ID = w
    · exact (less own).le
    · rw [none (sender.trans_ne own)]
      exact Nat.zero_le _
  | @restarts v req' own busy away chosen =>
    have differs : w ≠ u := fun same =>
      busy ⟨(ready same).told hand own, (ready same).flags⟩
    have after : (n.net.pushRequest v req').requests cfg = req' ::ₘ n.net.requests cfg :=
      requests_pushRequest chosen.target
    have sender : req'.ID = u := by
      obtain ⟨victims, rfl⟩ := chosen.same
      exact own
    refine replaced rfl (after.trans (Multiset.singleton_add _ _).symm) ?_
      (fun mine => absurd (mine.symm.trans own) differs) (fun i other member => mem_push member)
      fun same => absurd same differs
    rw [none (sender.trans_ne differs.symm)]
    exact Nat.zero_le _
  | forgets own working =>
    have differs : w ≠ u := fun same => by
      have told := (ready same).told hand own
      exact absurd (working.symm.trans told) (by simp)
    exact replaced rfl (zero_add _).symm (Nat.zero_le _)
      (fun mine => absurd (mine.symm.trans own) differs) (fun i other member => member)
      fun same => absurd same differs
  | drops own =>
    refine replaced rfl (zero_add _).symm (Nat.zero_le _) (fun mine => ?_)
      (fun i other member => member) fun _ => ⟨rfl, fun _ => rfl⟩
    rw [single mine]
    exact (show 0 < _ by omega)
  | retires own other awake => exact absurd (awake.symm.trans stays.symm) (by simp)
  | detects own master =>
    have differs : w ≠ u := fun same =>
      absurd (loud (settled.trans (ready same).settled) master) (by simp)
    exact replaced rfl (zero_add _).symm (Nat.zero_le _)
      (fun mine => absurd (mine.symm.trans own) differs) (fun i other member => member)
      fun same => absurd same differs

/-- An event of worker `u` that neither leaves the barrier nor retires the worker. -/
theorem SearchEvent.attends (event : SearchEvent cfg u n n') (worker : u < cfg.numWorkers)
    (inHand : ∀ req, n.self.pc.hand = some req → InHand cfg u req)
    (stays : n'.self.waitingForTasks = n.self.waitingForTasks)
    (remains : u = 0 → n'.self.pc ≠ .barrierExit) (ready : w = u → Ready cfg u n.self) :
    Attends cfg u w n n' := by
  cases event with
  | leaves master here => exact absurd here (remains master)
  | @adopts side req rest first failed before flags queue _ _ free here _ after =>
    have same : n'.requests cfg = n.requests cfg := by
      rw [requests_free here, requests_free free, after, queue, requests_dropRequest worker first,
        ← Multiset.coe_add, Multiset.coe_singleton, Multiset.cons_add, ← add_assoc, add_comm,
        Multiset.singleton_add]
    refine ⟨by rw [same], fun other held => ?_, fun i other member sender live => .inl ?_,
      fun own => ?_⟩
    · exact absurd (free.symm.trans held) (by simp)
    · rw [after]
      refine (mem_drop first member).resolve_right fun head => live (head ▸ failed)
    · exact absurd ((ready own).flags side) (by simp [before])
  | @takes i req taken rest k mine first live same free marked settled after =>
    subst after
    obtain ⟨state, rfl⟩ := same
    have inside : i < cfg.numWorkers := by
      rcases mem_region mine with rfl | ⟨inside, -⟩
      · exact worker
      · exact inside
    refine ⟨?_, fun other held => ?_, fun j other member sender _ => ?_, fun own => ?_⟩
    · have same (reqs : Multiset StealRequest) :
          attemptsLeft cfg w ({ req with state := state } ::ₘ reqs) =
            attemptsLeft cfg w (req ::ₘ reqs) := attemptsLeft_replace rfl rfl
      rw [requests_free free, requests_dropRequest inside first, Multiset.cons_add,
        requests_hand rfl]
      exact (same _).le
    · exact absurd (free.symm.trans held) (by simp)
    · rcases mem_drop first member with stays | rfl
      · exact .inl stays
      · exact .inr ⟨_, rfl, sender⟩
    · exact ⟨settled.trans (ready own).settled, (ready own).full, (ready own).flags, marked⟩
  | handles hand declines after free settled loud =>
    subst after
    exact declines.attends hand (inHand _ hand) free settled loud stays ready
  | sends target own keeps room requested waiting free here settled after =>
    have differs : w ≠ u := fun same => (ready same).full room
    refine ⟨?_, fun other held => ?_, fun i other member _ _ => .inl ?_,
      fun same => absurd same differs⟩
    · rw [requests_free here, requests_free free, after, requests_pushRequest target, keeps.queue,
        Multiset.cons_add, attemptsLeft_other (own.trans_ne differs.symm)]
    · exact absurd (free.symm.trans held) (by simp)
    · rw [after]
      exact mem_push member
  | enters free here before settled after =>
    subst after
    refine ⟨?_, fun other held => ?_, fun i other member _ _ => .inl member, fun own => ?_⟩
    · rw [requests_free free, requests_free here]
      exact le_rfl
    · exact absurd (free.symm.trans held) (by simp)
    · exact absurd ((ready own).settled) (by simp [before])

end Attempts

/-! ## Draining the channels of one worker -/

def State.awake (cfg : Config) (s : State) : ℕ :=
  ((Finset.range cfg.numWorkers).filter fun v => (s.workers v).waitingForTasks = false).card

/-- The channels worker `a` is going to receive from: its own and, with backoff, those below a
child that waits. -/
def LooksAfter (cfg : Config) (s : State) (a v : ℕ) : Prop :=
  v = a ∨ cfg.backoff ≠ .off ∧ ∃ side, (s.workers (child a side)).waitingForTasks = true ∧
    child a side < cfg.numWorkers ∧ Subtree (child a side) v

/-- Worker `a` has a request of `w`, or is going to receive it. -/
def Near (cfg : Config) (s : State) (a w : ℕ) : Prop :=
  (∃ req, (s.workers a).pc.hand = some req ∧ req.ID = w) ∨
    ∃ v, LooksAfter cfg s a v ∧ ∃ req ∈ s.net.chanRequests v, req.ID = w

/-- What a run of worker `u` alone does, as long as it does not retire. -/
structure Serves (cfg : Config) (u : ℕ) (s s' : State) : Prop where
  others : ∀ v, v ≠ u → s'.workers v = s.workers v
  waiting : (s'.workers u).waitingForTasks = (s.workers u).waitingForTasks
  requests : ∀ w < cfg.numWorkers, (s.workers w).waitingForTasks = false →
    (w = u → Ready cfg u (s.workers u)) →
    s'.pending cfg w ≤ s.pending cfg w ∧
      (Near cfg s u w → s'.pending cfg w < s.pending cfg w ∨ Near cfg s' u w) ∧
      (w = u → Ready cfg u (s'.workers u))

section Draining

variable {cfg : Config} {s s' s'' : State} {u v w : ℕ} {n' : Node} {req : StealRequest}

theorem Serves.refl : Serves cfg u s s :=
  ⟨fun _ _ => rfl, rfl, fun _ _ _ ready => ⟨le_rfl, .inr, ready⟩⟩

theorem Serves.wait (serves : Serves cfg u s s') (v : ℕ) :
    (s'.workers v).waitingForTasks = (s.workers v).waitingForTasks := by
  by_cases same : v = u
  · rw [same, serves.waiting]
  · rw [serves.others v same]

theorem Serves.trans (first : Serves cfg u s s') (second : Serves cfg u s' s'') :
    Serves cfg u s s'' := by
  refine ⟨fun v other => (second.others v other).trans (first.others v other),
    second.waiting.trans first.waiting, fun w worker awake ready => ?_⟩
  obtain ⟨fewer, near, still⟩ := first.requests w worker awake ready
  obtain ⟨fewer', near', still'⟩ :=
    second.requests w worker ((first.wait w).trans awake) still
  refine ⟨fewer'.trans fewer, fun close => ?_, still'⟩
  rcases near close with less | close
  · exact .inl (fewer'.trans_lt less)
  · rcases near' close with less | close
    · exact .inl (less.trans_le fewer)
    · exact .inr close

theorem Serves.awake (serves : Serves cfg u s s') : s'.awake cfg = s.awake cfg := by
  simp only [State.awake, serves.wait]

theorem awake_lt (worker : u < cfg.numWorkers) (before : (s.workers u).waitingForTasks = false)
    (after : n'.self.waitingForTasks = true) : (s.put u n').awake cfg < s.awake cfg := by
  refine Finset.card_lt_card (Finset.ssubset_iff_of_subset ?_ |>.mpr ⟨u, ?_, ?_⟩)
  · intro v member
    obtain ⟨inside, awake⟩ := Finset.mem_filter.mp member
    have other : v ≠ u := by
      rintro rfl
      simp [State.put_self, after] at awake
    rw [State.put_other n' other] at awake
    exact Finset.mem_filter.mpr ⟨inside, awake⟩
  · exact Finset.mem_filter.mpr ⟨Finset.mem_range.mpr worker, before⟩
  · exact fun member => absurd (Finset.mem_filter.mp member).2 (by simp [State.put_self, after])

theorem mem_requestsOf_of_hand (worker : u < cfg.numWorkers)
    (hand : (s.workers u).pc.hand = some req) : req ∈ s.requestsOf cfg req.ID := by
  refine Multiset.mem_filter.mpr ⟨Multiset.mem_add.mpr (.inr ?_), rfl⟩
  exact mem_gather.mpr ⟨u, worker, Multiset.mem_add.mpr (.inr (by simp [hand]))⟩

/-- A request says that its sender waits exactly if it does. -/
theorem Refines.failed_iff (ok : Refines cfg s) (worker : w < cfg.numWorkers)
    (member : req ∈ s.requestsOf cfg w) :
    req.state = .failed ↔ (s.workers w).waitingForTasks = true := by
  have account := (TokenProtocol.reachable_inv cfg.someSteal ok.ring).account w worker
  have mine : req.token ∈ (s.ring cfg).of w := by
    rw [ring_of_eq]
    exact Multiset.mem_add.mpr (.inl (Multiset.mem_map_of_mem _ member))
  exact ⟨account.failed req.token mine, fun waiting => (account.waits waiting).2.2.2 _ mine⟩

/-- A request in hand does not come from below a child that is known to be idle. -/
theorem Workless.hand_not_idle (idle : Workless cfg s) (few : cfg.numWorkers ≤ 32)
    (worker : u < cfg.numWorkers) (hand : (s.workers u).pc.hand = some req) :
    ¬ (s.workers u).SeesIdle u req.ID := by
  rintro ⟨side, flag, below⟩
  have sound := (((reachable_fit few idle.reached).workers u worker).hand req hand).sound
  have waiting := idle.refines.subtree_waits worker flag sound.sender below
  exact sound.live
    ((idle.refines.failed_iff sound.sender (mem_requestsOf_of_hand worker hand)).mpr waiting)

theorem SearchEvent.serves (event : SearchEvent cfg u (s.node u) n') (idle : Workless cfg s)
    (few : cfg.numWorkers ≤ 32) (worker : u < cfg.numWorkers)
    (stays : n'.self.waitingForTasks = (s.workers u).waitingForTasks)
    (remains : ¬ Returning (s.put u n')) : Serves cfg u s (s.put u n') := by
  have same := s.put_self u n'
  have wait (v : ℕ) :
      ((s.put u n').workers v).waitingForTasks = (s.workers v).waitingForTasks := by
    by_cases own : v = u
    · rw [own, same, stays]
    · rw [State.put_other n' own]
  refine ⟨fun v => State.put_other n', same ▸ stays, fun w inside awake ready => ?_⟩
  have attends : Attends cfg u w (s.node u) n' := by
    refine event.attends worker (fun req hand => ?_) stays (fun master here => remains ?_) ready
    · exact ((reachable_fit few idle.reached).workers u worker).hand req hand
    · subst master
      rw [Returning, same, here]
  obtain ⟨context, before, after⟩ := requests_put (s := s) worker
  have pending : s.pending cfg w = attemptsLeft cfg w ((s.node u).requests cfg) +
      attemptsLeft cfg w context := by rw [State.pending, before, attemptsLeft_add]
  have pending' : (s.put u n').pending cfg w = attemptsLeft cfg w (n'.requests cfg) +
      attemptsLeft cfg w context := by rw [State.pending, after, attemptsLeft_add]
  have attempts := attends.attempts
  refine ⟨by omega, fun near => ?_, fun own => same ▸ attends.ready own⟩
  rcases near with ⟨req, hand, sender⟩ | ⟨v, looks, req, member, sender⟩
  · have less := attends.hand req hand sender
    exact .inl (by omega)
  · have live : req.state ≠ .failed := by
      have exist := idle.refines.net.requests v (List.ne_nil_of_mem member)
      have mine := sender ▸ mem_requestsOf_of_channel exist member
      rw [ne_eq, idle.refines.failed_iff inside mine, awake]
      simp
    refine .inr ?_
    rcases attends.channel v req member sender live with still | ⟨taken, hand, sender⟩
    · have looks' : LooksAfter cfg (s.put u n') u v := by
        rcases looks with own | ⟨backoff, side, waits, below⟩
        · exact .inl own
        · exact .inr ⟨backoff, side, (wait _).trans waits, below⟩
      exact .inr ⟨v, looks', req, still, sender⟩
    · exact .inl ⟨taken, by rwa [same], sender⟩

/-- A worker can be run until it has drained the channels it looks after, unless `RT_barrier`
is left or the worker retires before. -/
theorem Workless.drain (idle : Workless cfg s) (few : cfg.numWorkers ≤ 32)
    (worker : u < cfg.numWorkers) (active : Active cfg s u) :
    ∃ s', ReflTransGen (system cfg).step s s' ∧ Workless cfg s' ∧
      (Returning s' ∨ s'.awake cfg < s.awake cfg ∨ Drained cfg s' u ∧ Serves cfg u s s') := by
  induction measure : load cfg u (s.node u) using WellFoundedLT.induction generalizing s with
  | ind bound ih =>
    subst measure
    by_cases returning : Returning s
    · exact ⟨s, .refl, idle, .inl returning⟩
    have search : Searching (homeSite u) (s.workers u).pc := by
      rcases idle.search u worker with search | ⟨rfl, exit⟩
      · exact search
      · exact absurd exit returning
    rcases idle.acts_or_drained few worker active search with drained | ⟨n', run, idle', event⟩
    · exact ⟨s, .refl, idle, .inr (.inr ⟨drained, .refl⟩)⟩
    by_cases returned : Returning (s.put u n')
    · exact ⟨_, run, idle', .inl returned⟩
    have self := s.put_self u n'
    have nonneg : 0 ≤ n'.self.requested := by
      have account := idle'.refines.account worker
      have dropped := account.dropped_nonneg
      have requested := account.dropped_le
      rw [self] at dropped requested
      omega
    have foreign (req : StealRequest) (hand : (s.workers u).pc.hand = some req) :=
      idle.hand_not_idle few worker hand
    rcases event.load_lt foreign nonneg with ⟨master, here⟩ | ⟨before, after⟩ | ⟨stays, lower⟩
    · subst master
      exact absurd (by rw [Returning, self, here]) returned
    · exact ⟨_, run, idle', .inr (.inl (awake_lt worker before after))⟩
    · have serves := event.serves idle few worker stays returned
      have lower : load cfg u ((s.put u n').node u) < load cfg u (s.node u) := by
        simpa [State.node, State.put] using lower
      have active' : Active cfg (s.put u n') u := by
        rw [Active, serves.waiting]
        exact active
      obtain ⟨s', further, idle'', outcome⟩ := ih _ lower idle' active' rfl
      rw [serves.awake] at outcome
      refine ⟨s', run.trans further, idle'', ?_⟩
      rcases outcome with returning | fewer | ⟨drained, more⟩
      · exact .inl returning
      · exact .inr (.inl fewer)
      · exact .inr (.inr ⟨drained, serves.trans more⟩)

end Draining

/-! ## Following the requests of one worker -/

section Following

variable {cfg : Config} {s : State} {a u v w : ℕ}

/-- A worker with an empty channel knows of the children that wait. -/
theorem Workless.flagged (idle : Workless cfg s) (worker : a < cfg.numWorkers)
    (empty : s.net.chanRequests a = []) {side : Side} (exist : child a side < cfg.numWorkers)
    (waiting : (s.workers (child a side)).waitingForTasks = true) :
    (s.workers a).flag side = true := by
  have inv := TokenProtocol.reachable_inv cfg.someSteal idle.refines.ring
  rcases (idle.refines.waiting_iff exist).mp waiting with
    ⟨req, only, -, -, channel | queue⟩ | ⟨chan, batch, -, -, message⟩
  · simp [empty] at channel
  · have sender : req.ID = child a side := by
      have member : req ∈ s.requestsOf cfg (child a side) := by simp [only]
      exact (Multiset.mem_filter.mp member).2
    exact (inv.lifeline a worker side).mpr
      (.inr ⟨req.token, mem_ring_queue.mpr ⟨worker, req, queue, rfl⟩, sender⟩)
  · rw [idle.channels] at message
    cases message

/-- Nothing is left to do for a worker that is drained. -/
theorem Drained.not_near (drained : Drained cfg s a) (idle : Workless cfg s)
    (worker : a < cfg.numWorkers) : ¬ Near cfg s a w := by
  rintro (⟨req, hand, -⟩ | ⟨v, rfl | ⟨backoff, side, waiting, exist, below⟩, req, member, -⟩)
  · exact absurd (drained.free.symm.trans hand) (by simp)
  · simp [drained.own] at member
  · have inside := idle.refines.net.requests v (List.ne_nil_of_mem member)
    have flag := idle.flagged worker drained.own exist waiting
    simp [drained.behalf backoff v (mem_onBehalf inside ⟨side, flag, below⟩)] at member

/-- The last worker that is awake is ready once it is drained. -/
theorem Drained.ready (drained : Drained cfg s w) (idle : Workless cfg s)
    (few : cfg.numWorkers ≤ 32) (worker : w < cfg.numWorkers)
    (last : ∀ v < cfg.numWorkers, w < v → (s.workers v).waitingForTasks = true) :
    Ready cfg w (s.workers w) where
  settled := drained.settled
  full := drained.full
  flags side := by
    by_cases exist : child w side < cfg.numWorkers
    · have below : w < child w side := by cases side <;> simp only [child] <;> omega
      exact idle.flagged worker drained.own exist (last _ exist below)
    · exact ((reachable_fit few idle.reached).workers w worker).holds.missing side
        (Nat.le_of_not_lt exist)
  marked := Pc.unmarked_of_hand drained.free

/-- Above a worker that waits there is one that does not, and everybody between them waits. -/
theorem Refines.awake_above (ok : Refines cfg s) (worker : v < cfg.numWorkers)
    (waiting : (s.workers v).waitingForTasks = true) : ∃ a side, a < cfg.numWorkers ∧
      (s.workers a).waitingForTasks = false ∧ child a side < cfg.numWorkers ∧
      (s.workers (child a side)).waitingForTasks = true ∧ Subtree (child a side) v := by
  induction v using Nat.strong_induction_on with
  | h v ih =>
    have inv := TokenProtocol.reachable_inv cfg.someSteal ok.ring
    obtain ⟨p, climbs⟩ := exists_parent (inv.waits v waiting).1
    have lower := parent_lt climbs
    obtain ⟨side, rfl⟩ := exists_child climbs
    cases above : (s.workers p).waitingForTasks with
    | false => exact ⟨p, side, by omega, above, worker, waiting, .here⟩
    | true =>
      obtain ⟨a, side', inside, awake, exist, waits, below⟩ := ih p lower (by omega) above
      exact ⟨a, side', inside, awake, exist, waits, .child below climbs⟩

/-- A ready worker that is awake has a request under way. -/
theorem Workless.exists_request (idle : Workless cfg s) (worker : w < cfg.numWorkers)
    (ready : Ready cfg w (s.workers w)) : ∃ req, req ∈ s.requestsOf cfg w := by
  have account := idle.refines.account worker
  have live := account.live
  have dropped : (s.workers w).droppedStealRequests < cfg.maxSteal :=
    ((TokenProtocol.reachable_inv cfg.someSteal idle.refines.ring).account w worker).dropped_lt
  have full := ready.full
  have none : s.messagesFor cfg w = 0 := by
    refine Multiset.filter_eq_nil.mpr fun chan _ => ?_
    simp [idle.channels]
  rw [none, Multiset.card_zero] at live
  exact Multiset.card_pos_iff_exists_mem.mp (by omega)

/-- Somebody can be run that has a request of the worker, or is going to receive it. -/
theorem Workless.exists_near (idle : Workless cfg s) (worker : w < cfg.numWorkers)
    (awake : (s.workers w).waitingForTasks = false) (ready : Ready cfg w (s.workers w)) :
    ∃ a < cfg.numWorkers, Active cfg s a ∧ Near cfg s a w := by
  have ok := idle.refines
  obtain ⟨req, mine⟩ := idle.exists_request worker ready
  have live : req.state ≠ .failed := by
    rw [ne_eq, ok.failed_iff worker mine, awake]
    simp
  obtain ⟨somewhere, sender⟩ := Multiset.mem_filter.mp mine
  rcases Multiset.mem_add.mp somewhere with inChannel | held
  · obtain ⟨v, inside, member⟩ := mem_gather.mp inChannel
    have member : req ∈ s.net.chanRequests v := Multiset.mem_coe.mp member
    by_cases active : Active cfg s v
    · exact ⟨v, inside, active, .inr ⟨v, .inl rfl, req, member, sender⟩⟩
    · rw [Active, Classical.not_imp] at active
      obtain ⟨a, side, above, awake, exist, waits, below⟩ := ok.awake_above inside active.1
      refine ⟨a, above, fun waiting => ?_, .inr ⟨v, .inr ⟨active.2, side, waits, exist, below⟩, req,
        member, sender⟩⟩
      exact absurd (awake.symm.trans waiting) (by simp)
  · obtain ⟨v, inside, member⟩ := mem_gather.mp held
    rcases Multiset.mem_add.mp member with queued | inHand
    · have failed := ((TokenProtocol.reachable_inv cfg.someSteal ok.ring).queue_failed v req.token
        (mem_ring_queue.mpr ⟨inside, req, Multiset.mem_coe.mp queued, rfl⟩))
      exact absurd failed live
    · have hand : (s.workers v).pc.hand = some req := by simpa using inHand
      refine ⟨v, inside, fun waiting => ?_, .inl ⟨req, hand, sender⟩⟩
      -- a worker that has backed off has nothing in its hand
      by_contra backoff
      have receives : (s.workers v).pc.mayWait = true := (ok.loc v inside).waits waiting backoff
      cases here : (s.workers v).pc with
      | handle k other =>
        rw [here] at receives
        cases receives
      | _ => simp [here, Pc.hand] at hand

/-- The requests of a ready worker can be followed until the worker retires, or `RT_barrier`
is left. -/
theorem Workless.follow (idle : Workless cfg s) (few : cfg.numWorkers ≤ 32)
    (worker : w < cfg.numWorkers) (awake : (s.workers w).waitingForTasks = false)
    (ready : Ready cfg w (s.workers w)) :
    ∃ s', ReflTransGen (system cfg).step s s' ∧ Workless cfg s' ∧
      (Returning s' ∨ s'.awake cfg < s.awake cfg) := by
  induction left : s.pending cfg w using Nat.strong_induction_on generalizing s with
  | h left ih =>
    subst left
    obtain ⟨a, inside, active, near⟩ := idle.exists_near worker awake ready
    obtain ⟨s₁, run, idle₁, outcome⟩ := idle.drain few inside active
    rcases outcome with returning | fewer | ⟨drained, serves⟩
    · exact ⟨s₁, run, idle₁, .inl returning⟩
    · exact ⟨s₁, run, idle₁, .inr fewer⟩
    · obtain ⟨-, moved, still⟩ := serves.requests w worker awake fun same => same ▸ ready
      have less := (moved near).resolve_right (drained.not_near idle₁ inside)
      have ready₁ : Ready cfg w (s₁.workers w) := by
        by_cases same : w = a
        · subst same
          exact still rfl
        · rwa [serves.others w same]
      obtain ⟨s', further, idle', outcome⟩ :=
        ih _ less idle₁ ((serves.wait w).trans awake) ready₁ rfl
      exact ⟨s', run.trans further, idle', by rwa [serves.awake] at outcome⟩

theorem Refines.exists_last (ok : Refines cfg s) : ∃ w < cfg.numWorkers,
    (s.workers w).waitingForTasks = false ∧
      ∀ v < cfg.numWorkers, w < v → (s.workers v).waitingForTasks = true := by
  have inv := TokenProtocol.reachable_inv cfg.someSteal ok.ring
  have master : (s.workers 0).waitingForTasks = false := by
    by_contra waiting
    exact (inv.waits 0 (by simpa [State.ring, Worker.agent] using waiting)).1 rfl
  obtain ⟨w, member, largest⟩ := Finset.exists_max_image ((Finset.range cfg.numWorkers).filter
    fun v => (s.workers v).waitingForTasks = false) id
    ⟨0, Finset.mem_filter.mpr ⟨Finset.mem_range.mpr cfg.someWorker, master⟩⟩
  obtain ⟨inside, awake⟩ := Finset.mem_filter.mp member
  refine ⟨w, Finset.mem_range.mp inside, awake, fun v worker above => ?_⟩
  by_contra wakes
  have lower : v ≤ w := largest v
    (Finset.mem_filter.mpr ⟨Finset.mem_range.mpr worker, by simpa using wakes⟩)
  omega

/-- Some worker can be made to retire, unless `RT_barrier` is left before.  There are only so
many of them, so that in the end it is left. -/
theorem Workless.progress (idle : Workless cfg s) (few : cfg.numWorkers ≤ 32) :
    ∃ s', ReflTransGen (system cfg).step s s' ∧ Workless cfg s' ∧
      (Returning s' ∨ s'.awake cfg < s.awake cfg) := by
  obtain ⟨w, worker, awake, last⟩ := idle.refines.exists_last
  obtain ⟨s₁, run, idle₁, outcome⟩ := idle.drain few worker fun waiting =>
    absurd (awake.symm.trans waiting) (by simp)
  rcases outcome with returning | fewer | ⟨drained, serves⟩
  · exact ⟨s₁, run, idle₁, .inl returning⟩
  · exact ⟨s₁, run, idle₁, .inr fewer⟩
  · have ready := drained.ready idle₁ few worker fun v inside above =>
      (serves.wait v).trans (last v inside above)
    obtain ⟨s', further, idle', outcome⟩ :=
      idle₁.follow few worker ((serves.wait w).trans awake) ready
    exact ⟨s', run.trans further, idle', by rwa [serves.awake] at outcome⟩

theorem Workless.returns (idle : Workless cfg s) (few : cfg.numWorkers ≤ 32) :
    ∃ s', ReflTransGen (system cfg).step s s' ∧ Workless cfg s' ∧ Returning s' := by
  induction left : s.awake cfg using Nat.strong_induction_on generalizing s with
  | h left ih =>
    subst left
    obtain ⟨s₁, run, idle₁, returning | fewer⟩ := idle.progress few
    · exact ⟨s₁, run, idle₁, returning⟩
    · obtain ⟨s', further, idle', returning⟩ := ih _ fewer idle₁ rfl
      exact ⟨s', run.trans further, idle', returning⟩

end Following

/-- With at most 32 workers, no run ends in `RT_barrier` for ever: in every reachable state in
which all tasks that were created have finished and the master is in `RT_barrier`, the workers
can take steps after which the barrier has returned. -/
theorem barrier_can_return {cfg : Config} {s : State} (few : cfg.numWorkers ≤ 32)
    (reached : (system cfg).Reachable s) (done : s.net.finished.Perm s.net.created)
    (barrier : (s.workers 0).pc.site = some .barrier) :
    ∃ s', ReflTransGen (system cfg).step s s' ∧ (s'.workers 0).pc = .user ∧
      (s'.workers 0).quiescent = true := by
  obtain ⟨s₁, run, idle, returning⟩ := (workless_of_done reached done barrier).returns few
  have returning : (s₁.workers 0).pc = .barrierExit := returning
  have quiescent : (s₁.workers 0).quiescent = true :=
    (idle.refines.loc 0 cfg.someWorker).leaves_quiescent returning
  have step : wstep cfg 0 (.plain .poll) (s₁.node 0) = .ok ((s₁.node 0).goto .user) := by
    simp only [wstep, State.node, returning, check, quiescent, ↓reduceIte]
    rfl
  refine ⟨_, run.tail ⟨0, cfg.someWorker, _, _, step, rfl⟩, ?_, ?_⟩
  · simp [State.put_self, Node.goto]
  · simpa [State.put_self, Node.goto, State.node] using quiescent

/-- The master pushes a task and runs it in `RT_barrier`; meanwhile the first request of worker
1 has come to it. -/
def doneSchedule : List (ℕ × Choice) :=
  (0, .plain (.spawn none false)) :: runsOn 0 3 ++ (0, .plain .barrier) :: runsOn 0 5 ++
    (0, .plain (.finish [])) :: runsOn 1 5

theorem barrier_can_return_two :
    (after (.makefile 2 two_pos) doneSchedule).net.chanRequests 0 ≠ [] ∧
      ∃ s', ReflTransGen (system (.makefile 2 two_pos)).step
        (after (.makefile 2 two_pos) doneSchedule) s' ∧ (s'.workers 0).pc = .user ∧
        (s'.workers 0).quiescent = true :=
  ⟨by decide +kernel, barrier_can_return (by decide) (after_reachable _ _) (by decide +kernel)
    (by decide +kernel)⟩

end Tasking.Runtime
