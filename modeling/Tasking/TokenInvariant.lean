import Mathlib.Algebra.BigOperators.Group.Finset.Piecewise
import Mathlib.Algebra.Order.BigOperators.Group.Finset
import Tasking.TokenProtocol
import Tasking.WorkerTree

/-! The invariant of the token protocol: every worker's account balances, a
token of a worker that gave up is on its way to the worker's parent or held by
it, and a parent's idle flags say exactly which children it holds a token of. -/
namespace Tasking.TokenProtocol
open Tasking.Runtime (ReqState)
open WorkerTree Function

/-- The tokens and answers of a worker among the given ones. -/
def bag (tokens : Multiset (Place × Token)) (answers : Multiset Token) (w : ℕ) : Multiset Token :=
  (tokens.map Prod.snd + answers).filter fun r => r.owner = w

section Bag

variable {tokens : Multiset (Place × Token)} {answers : Multiset Token} {p : Place} {r : Token}
  {w : ℕ}

theorem bag_cons_self (own : r.owner = w) :
    bag ((p, r) ::ₘ tokens) answers w = r ::ₘ bag tokens answers w := by
  simp [bag, own]

theorem bag_cons_ne (other : r.owner ≠ w) :
    bag ((p, r) ::ₘ tokens) answers w = bag tokens answers w := by
  simp [bag, other]

theorem bag_answer (p : Place) : bag tokens (r ::ₘ answers) w =
    bag ((p, r) ::ₘ tokens) answers w := by
  simp [bag]

end Bag

theorem State.of_eq (a : State) (w : ℕ) : a.of w = bag a.tokens a.answers w := rfl

theorem child_parent {w : ℕ} {side : Side} : parent (child w side) = some w := by
  cases side <;> simp [child]

/-- A worker other than the master is a child of its parent. -/
theorem exists_child {i p : ℕ} (climbs : parent i = some p) : ∃ side, i = child p side := by
  rcases parent_eq_some.mp climbs with left | right
  · exact ⟨.left, left⟩
  · exact ⟨.right, right⟩

theorem child_inj {w : ℕ} {side other : Side} (same : child w side = child w other) :
    side = other := by
  cases side <;> cases other <;> simp [child] at same <;> rfl

structure Inv (n M : ℕ) (a : State) : Prop where
  owner_lt : ∀ r ∈ a.live, r.owner < n
  account : ∀ w < n, Account M (a.agent w) (a.of w)
  waits : ∀ w, (a.agent w).waiting = true →
    w ≠ 0 ∧ w < n ∧ ∀ side, (a.agent w).idle side = true
  failed_place : ∀ p r, (p, r) ∈ a.tokens → r.state = .failed →
    ∃ q, parent r.owner = some q ∧ (p = .channel q ∨ p = .queue q)
  queue_failed : ∀ q r, (Place.queue q, r) ∈ a.tokens → r.state = .failed
  lifeline : ∀ w < n, ∀ side, (a.agent w).idle side = true ↔
    n ≤ child w side ∨ ∃ r, (Place.queue w, r) ∈ a.tokens ∧ r.owner = child w side
  quiet : 2 ≤ n → a.quiescent = true →
    (a.agent 0).busy = true ∧ (∀ side, (a.agent 0).idle side = true) ∧ a.answers = 0

namespace Inv

variable {n M : ℕ} {a : State} {w : ℕ} {r : Token} {p : Place} {rest : Multiset (Place × Token)}
  {side : Side} {i : ℕ}

theorem init (positive : 0 < M) : Inv n M (State.init n M) := by
  refine ⟨?_, ?_, ?_, ?_, ?_, ?_, ?_⟩
  · simp [State.live, State.init]
  · intro w _
    refine ⟨?_, ?_, le_refl 0, ?_, ?_, ?_, ?_, ?_⟩
    · simp [State.init, State.of, State.live]
    · simp [State.init]
    · simpa [State.init] using positive
    · simp [State.init]
    · simpa [State.init, State.of, State.live] using positive
    · simp [State.init]
    · simp [State.of, State.live, State.init]
  · simp [State.init]
  · simp [State.init]
  · simp [State.init]
  · simp [State.init]
  · simp [State.init]

/-! ## What the invariant says about a token -/

theorem token_owner_lt (inv : Inv n M a) (member : (p, r) ∈ a.tokens) : r.owner < n :=
  inv.owner_lt r (Multiset.mem_add.mpr (.inl (Multiset.mem_map_of_mem Prod.snd member)))

theorem answer_owner_lt (inv : Inv n M a) (member : r ∈ a.answers) : r.owner < n :=
  inv.owner_lt r (Multiset.mem_add.mpr (.inr member))

theorem mem_of_token (member : (p, r) ∈ a.tokens) : r ∈ a.of r.owner := by
  refine Multiset.mem_filter.mpr ⟨Multiset.mem_add.mpr (.inl ?_), rfl⟩
  exact Multiset.mem_map_of_mem Prod.snd member

theorem token_account (inv : Inv n M a) (held : a.tokens = (p, r) ::ₘ rest) :
    Account M (a.agent r.owner) (r ::ₘ bag rest a.answers r.owner) := by
  have acc := inv.account r.owner (inv.token_owner_lt
    (by rw [held]; exact Multiset.mem_cons_self _ _))
  rwa [a.of_eq, held, bag_cons_self rfl] at acc

theorem answer_account {rest : Multiset Token} (inv : Inv n M a) (held : a.answers = r ::ₘ rest) :
    Account M (a.agent r.owner) (r ::ₘ bag a.tokens rest r.owner) := by
  have acc := inv.account r.owner
    (inv.answer_owner_lt (by rw [held]; exact Multiset.mem_cons_self _ _))
  rwa [a.of_eq, held, bag_answer (.hand 0), bag_cons_self rfl] at acc

/-- The owner of a failed token waits. -/
theorem failed_waits (inv : Inv n M a) (member : (p, r) ∈ a.tokens) (failed : r.state = .failed) :
    (a.agent r.owner).waiting = true :=
  (inv.account _ (inv.token_owner_lt member)).failed r (mem_of_token member) failed

/-- A token in a worker's hand is not failed. -/
theorem hand_live (inv : Inv n M a) (member : (Place.hand w, r) ∈ a.tokens) :
    r.state ≠ .failed := by
  intro failed
  obtain ⟨q, -, place | place⟩ := inv.failed_place _ _ member failed <;> cases place

/-- The token of a waiting worker is the only one it has. -/
theorem no_other (inv : Inv n M a) (held : a.tokens = (p, r) ::ₘ rest)
    (waiting : (a.agent r.owner).waiting = true) :
    (∀ q r', (q, r') ∈ rest → r'.owner ≠ r.owner) ∧ ∀ r' ∈ a.answers, r'.owner ≠ r.owner := by
  have acc := inv.token_account held
  have single := acc.waiting_single waiting
  rw [Multiset.card_cons] at single
  have none : bag rest a.answers r.owner = 0 := Multiset.card_eq_zero.mp (by omega)
  refine ⟨fun q r' member own => ?_, fun r' member own => ?_⟩
  · have inBag : r' ∈ bag rest a.answers r.owner := Multiset.mem_filter.mpr
      ⟨Multiset.mem_add.mpr (.inl (Multiset.mem_map_of_mem Prod.snd member)), own⟩
    simp [none] at inBag
  · have inBag : r' ∈ bag rest a.answers r.owner :=
      Multiset.mem_filter.mpr ⟨Multiset.mem_add.mpr (.inr member), own⟩
    simp [none] at inBag

/-! ## Lifelines -/

/-- A worker flagged idle waits, and its parent holds its token. -/
theorem flagged_child (inv : Inv n M a) (worker : w < n) (exist : child w side < n)
    (idle : (a.agent w).idle side = true) :
    (a.agent (child w side)).waiting = true ∧
      ∃ r, (Place.queue w, r) ∈ a.tokens ∧ r.owner = child w side := by
  rcases (inv.lifeline w worker side).mp idle with missing | ⟨r, held, owner⟩
  · omega
  · have waiting := inv.failed_waits held (inv.queue_failed _ _ held)
    rw [owner] at waiting
    exact ⟨waiting, r, held, owner⟩

/-- Below an idle flag everybody waits. -/
theorem subtree_waits (inv : Inv n M a) (worker : w < n) (idle : (a.agent w).idle side = true)
    (exist : i < n) (below : Subtree (child w side) i) : (a.agent i).waiting = true := by
  induction below with
  | here => exact (inv.flagged_child worker exist idle).1
  | @child q i above climbs ih =>
    have smaller := parent_lt climbs
    have upper := ih (by omega)
    obtain ⟨-, inside, flags⟩ := inv.waits q upper
    obtain ⟨side', rfl⟩ := exists_child climbs
    exact (inv.flagged_child inside exist (flags side')).1

/-- If both subtrees of the master are idle, then every other worker waits, and
its parent holds its token. -/
theorem all_wait (inv : Inv n M a) (worker : 0 < n) (idle : ∀ side, (a.agent 0).idle side = true)
    (exist : i < n) (other : i ≠ 0) :
    (a.agent i).waiting = true ∧ ∃ q r, (Place.queue q, r) ∈ a.tokens ∧ r.owner = i := by
  obtain ⟨q, climbs⟩ := exists_parent other
  have smaller := parent_lt climbs
  obtain ⟨side, rfl⟩ := exists_child climbs
  have flagged : (a.agent q).idle side = true := by
    by_cases master : q = 0
    · subst master
      exact idle side
    · obtain below | ⟨top, under, below⟩ := (subtree_master q).eq_or_under_child
      · exact absurd below master
      · obtain ⟨side', rfl⟩ := exists_child under
        exact (inv.waits q (inv.subtree_waits worker (idle side') (by omega) below)).2.2 side
  obtain ⟨waiting, r, held, owner⟩ := inv.flagged_child (by omega) exist flagged
  exact ⟨waiting, q, r, held, owner⟩

/-- A failed token is not in the channel of a worker that waits. -/
theorem channel_live (inv : Inv n M a) (waiting : (a.agent i).waiting = true)
    (member : (Place.channel i, r) ∈ a.tokens) : r.state ≠ .failed := by
  intro failed
  obtain ⟨q, climbs, place⟩ := inv.failed_place _ _ member failed
  obtain rfl : i = q := by
    rcases place with same | same <;> cases same
    rfl
  obtain ⟨side, owner⟩ := exists_child climbs
  obtain ⟨-, inside, flags⟩ := inv.waits i waiting
  have exist := inv.token_owner_lt member
  rw [owner] at exist
  -- The parent already holds on to a token of this child.
  obtain ⟨-, held, queued, same⟩ := inv.flagged_child inside exist (flags side)
  obtain ⟨rest, shape⟩ := Multiset.exists_cons_of_mem member
  have apart := (inv.no_other shape (inv.failed_waits member failed)).1
  rw [shape] at queued
  rcases Multiset.mem_cons.mp queued with wrong | inRest
  · cases wrong
  · exact apart _ _ inRest (same.trans owner.symm)

/-- A worker only holds on to tokens of its children. -/
theorem queue_child (inv : Inv n M a) (member : (Place.queue w, r) ∈ a.tokens) :
    ∃ side, r.owner = child w side := by
  obtain ⟨q, climbs, place⟩ := inv.failed_place _ _ member (inv.queue_failed _ _ member)
  obtain rfl : w = q := by
    rcases place with same | same <;> cases same
    rfl
  exact exists_child climbs

/-- The tokens a worker holds on to belong to different children. -/
theorem queue_nodup (inv : Inv n M a) {queue : Multiset Token}
    (held : a.tokens = queue.map (Prod.mk (.queue w)) + rest) :
    (queue.map Token.owner).Nodup := by
  refine Multiset.nodup_iff_count_le_one.mpr fun owner => ?_
  rw [Multiset.count_map]
  by_contra several
  obtain ⟨r, member⟩ := Multiset.card_pos_iff_exists_mem.mp
    (show 0 < (queue.filter fun r => owner = r.owner).card by omega)
  obtain ⟨inQueue, rfl⟩ := Multiset.mem_filter.mp member
  have inTokens : (Place.queue w, r) ∈ a.tokens := by
    rw [held]
    exact Multiset.mem_add.mpr (.inl (Multiset.mem_map_of_mem _ inQueue))
  have waiting := inv.failed_waits inTokens (inv.queue_failed _ _ inTokens)
  have single := (inv.account _ (inv.token_owner_lt inTokens)).waiting_single waiting
  have fewer : queue.filter (fun t => r.owner = t.owner) ≤ a.of r.owner := by
    rw [a.of_eq, bag, held]
    simp only [Multiset.map_add, Multiset.map_map, comp_def, Multiset.map_id',
      Multiset.filter_add, eq_comm]
    exact (Multiset.le_add_right _ _).trans (Multiset.le_add_right _ _)
  have := Multiset.card_le_card fewer
  omega

theorem queue_card (inv : Inv n M a) {queue : Multiset Token}
    (held : a.tokens = queue.map (Prod.mk (.queue w)) + rest) : queue.card ≤ 2 := by
  have among : queue.map Token.owner ⊆ {child w .left, child w .right} := by
    intro owner member
    obtain ⟨r, inQueue, rfl⟩ := Multiset.mem_map.mp member
    have inTokens : (Place.queue w, r) ∈ a.tokens := by
      rw [held]
      exact Multiset.mem_add.mpr (.inl (Multiset.mem_map_of_mem _ inQueue))
    obtain ⟨side, owner⟩ := inv.queue_child inTokens
    cases side with
    | left => simp [owner]
    | right => simp [owner]
  have fewer := Multiset.card_le_card
    ((Multiset.le_iff_subset (inv.queue_nodup held)).mpr among)
  simpa using fewer

/-! ## How many tokens there are -/

private theorem card_by_owner (live : Multiset Token) (owners : ∀ r ∈ live, r.owner < n) :
    live.card = ∑ w ∈ Finset.range n, (live.filter fun r => r.owner = w).card := by
  induction live using Multiset.induction_on with
  | empty => simp
  | cons r live ih =>
    have inside : r.owner < n := owners r (Multiset.mem_cons_self _ _)
    rw [Multiset.card_cons, ih fun token member => owners token (Multiset.mem_cons_of_mem member)]
    simp [Multiset.filter_cons, apply_ite Multiset.card, Finset.sum_add_distrib, inside,
      Nat.add_comm]

theorem card_live (inv : Inv n M a) :
    a.live.card + ∑ w ∈ Finset.range n, (a.agent w).free.card = n * M := by
  rw [card_by_owner a.live inv.owner_lt, ← Finset.sum_add_distrib]
  have each : ∀ w ∈ Finset.range n,
      (a.live.filter fun r => r.owner = w).card + (a.agent w).free.card = M := by
    intro w member
    have total := (inv.account w (Finset.mem_range.mp member)).card_free
    simp only [State.of] at total
    omega
  rw [Finset.sum_congr rfl each]
  simp

/-- There are never more tokens than channels, since each token carries a channel of its owner,
and no two the same. -/
theorem card_tokens_le (inv : Inv n M a) : a.tokens.card ≤ n * M := by
  have total := inv.card_live
  simp only [State.live, Multiset.card_add, Multiset.card_map] at total
  omega

/-- A worker with a free channel leaves room for a token, so that a new request can always be
sent. -/
theorem card_tokens_lt (inv : Inv n M a) (worker : w < n) (free : (a.agent w).free ≠ 0) :
    a.tokens.card < n * M := by
  have total := inv.card_live
  simp only [State.live, Multiset.card_add, Multiset.card_map] at total
  have some' : 0 < (a.agent w).free.card := Multiset.card_pos.mpr free
  have one := Finset.single_le_sum (f := fun w => (a.agent w).free.card) (fun _ _ => Nat.zero_le _)
    (Finset.mem_range.mpr worker)
  omega

/-! ## Preservation -/

/-- The rule for a step that concerns the account of one worker `w`, makes nobody
wait and leaves the lifelines alone. -/
private theorem plain {a a' : State} (inv : Inv n M a) (w : ℕ)
    (agents : ∀ v, v ≠ w → a'.agent v = a.agent v) (bags : ∀ v, v ≠ w → a'.of v = a.of v)
    (own : w < n → Account M (a'.agent w) (a'.of w)) (owners : ∀ r ∈ a'.live, r.owner < n)
    (idle : (a'.agent w).idle = (a.agent w).idle)
    (waiting : (a'.agent w).waiting = true → (a.agent w).waiting = true)
    (failed : ∀ p r, (p, r) ∈ a'.tokens → r.state = .failed → (p, r) ∈ a.tokens)
    (queue : ∀ q r, (Place.queue q, r) ∈ a'.tokens ↔ (Place.queue q, r) ∈ a.tokens)
    (quiet : 2 ≤ n → a'.quiescent = true →
      (a'.agent 0).busy = true ∧ (∀ side, (a'.agent 0).idle side = true) ∧ a'.answers = 0) :
    Inv n M a' := by
  have flags : ∀ v, (a'.agent v).idle = (a.agent v).idle := by
    intro v
    by_cases same : v = w
    · subst same
      exact idle
    · rw [agents v same]
  refine ⟨owners, ?_, ?_, ?_, ?_, ?_, quiet⟩
  · intro v inside
    by_cases same : v = w
    · subst same
      exact own inside
    · rw [agents v same, bags v same]
      exact inv.account v inside
  · intro v now
    rw [flags]
    by_cases same : v = w
    · subst same
      exact inv.waits v (waiting now)
    · rw [agents v same] at now
      exact inv.waits v now
  · intro p r member now
    exact inv.failed_place p r (failed p r member now) now
  · intro q r member
    exact inv.queue_failed q r ((queue q r).mp member)
  · intro v inside side
    simp only [flags, queue]
    exact inv.lifeline v inside side

theorem post (inv : Inv n M a) {v c : ℕ} {free : Multiset ℕ} {state : ReqState} (worker : w < n)
    (room : (a.agent w).requested < M) (taken : (a.agent w).free = c ::ₘ free)
    (fits : state = .working ∨ (state = .idle ∧ (a.agent w).busy = false)) :
    Inv n M { a.set w { a.agent w with
        requested := (a.agent w).requested + 1, free := free } with
      tokens := (.channel v, ⟨w, c, state⟩) ::ₘ a.tokens } := by
  have live : state ≠ .failed := by
    rcases fits with rfl | ⟨rfl, -⟩ <;> simp
  refine inv.plain w ?_ ?_ ?_ ?_ ?_ ?_ ?_ ?_ ?_
  · exact fun v other => update_of_ne other _ _
  · exact fun v other => bag_cons_ne (Ne.symm other)
  · intro _
    rw [State.of_eq, bag_cons_self rfl]
    simpa [State.set, State.of_eq] using (inv.account w worker).post room taken fits
  · intro r member
    simp only [State.live, State.set, Multiset.map_cons, Multiset.cons_add, Multiset.mem_cons]
      at member
    rcases member with rfl | member
    · exact worker
    · exact inv.owner_lt r member
  · simp [State.set]
  · simp [State.set]
  · intro p r member failed
    rcases Multiset.mem_cons.mp member with same | member
    · cases same
      exact absurd failed live
    · exact member
  · simp
  · intro several quiescent
    obtain ⟨busy, flags, none⟩ := inv.quiet several quiescent
    by_cases same : 0 = w
    · subst same
      exact ⟨by simpa [State.set] using busy, by simpa [State.set] using flags, none⟩
    · exact ⟨by simpa [State.set, same] using busy, by simpa [State.set, same] using flags, none⟩

/-- Moving a token between two places that are not queues. -/
private theorem move (inv : Inv n M a) {q : Place} {r' : Token}
    (held : a.tokens = (p, r) ::ₘ rest) (live : r.state ≠ .failed) (same : Promotes a w r r')
    (notFrom : ∀ v, p ≠ .queue v) (notTo : ∀ v, q ≠ .queue v) :
    Inv n M { a with tokens := (q, r') ::ₘ rest } := by
  have owner : r'.owner = r.owner := by
    rcases same with rfl | ⟨-, -, -, rfl⟩ <;> rfl
  have live' : r'.state ≠ .failed := by
    rcases same with rfl | ⟨-, -, -, rfl⟩
    · exact live
    · simp
  refine inv.plain r.owner (fun _ _ => rfl) ?_ ?_ ?_ rfl id ?_ ?_ inv.quiet
  · intro v other
    rw [State.of_eq, State.of_eq, held, bag_cons_ne (owner ▸ Ne.symm other),
      bag_cons_ne (Ne.symm other)]
  · intro _
    have acc := inv.token_account held
    rw [State.of_eq, bag_cons_self owner]
    rcases same with rfl | ⟨own, working, idle, rfl⟩
    · exact acc
    · exact acc.promote working (own ▸ idle)
  · intro token member
    simp only [State.live, Multiset.map_cons, Multiset.cons_add, Multiset.mem_cons] at member
    rcases member with rfl | member
    · rw [owner]
      exact inv.token_owner_lt (p := p) (by simp [held])
    · refine inv.owner_lt token ?_
      simp only [State.live, held, Multiset.map_cons, Multiset.cons_add]
      exact Multiset.mem_cons_of_mem member
  · intro place token member failed
    rcases Multiset.mem_cons.mp member with now | member
    · cases now
      exact absurd failed live'
    · rw [held]
      exact Multiset.mem_cons_of_mem member
  · intro v token
    simp only [held, Multiset.mem_cons, Prod.mk.injEq]
    have from' := notFrom v
    have to' := notTo v
    constructor
    · rintro (⟨same, -⟩ | member)
      · exact absurd same.symm to'
      · exact .inr member
    · rintro (⟨same, -⟩ | member)
      · exact absurd same.symm from'
      · exact .inr member

theorem take (inv : Inv n M a) {r' : Token} (held : a.tokens = (.channel i, r) ::ₘ rest)
    (live : r.state ≠ .failed) (same : Promotes a w r r') :
    Inv n M { a with tokens := (.hand w, r') ::ₘ rest } :=
  inv.move held live same (by simp) (by simp)

theorem relay (inv : Inv n M a) {v : ℕ} (held : a.tokens = (.hand w, r) ::ₘ rest) :
    Inv n M { a with tokens := (.channel v, r) ::ₘ rest } :=
  inv.move (w := w) held (inv.hand_live (by rw [held]; exact Multiset.mem_cons_self _ _)) (.inl rfl)
    (by simp) (by simp)

/-- The owner takes a token out of circulation and its account still balances. -/
private theorem retract (inv : Inv n M a) {agent : Agent} (quiescent : Bool)
    (held : a.tokens = (.hand w, r) ::ₘ rest) (own : r.owner = w)
    (acc : Account M agent (bag rest a.answers w)) (idle : agent.idle = (a.agent w).idle)
    (waiting : agent.waiting = (a.agent w).waiting)
    (quiet : 2 ≤ n → quiescent = true → (w = 0 → agent.busy = true) ∧
      (w ≠ 0 → (a.agent 0).busy = true) ∧ (∀ side, (a.agent 0).idle side = true) ∧
      a.answers = 0) :
    Inv n M { a.set w agent with quiescent := quiescent, tokens := rest } := by
  refine inv.plain w ?_ ?_ ?_ ?_ ?_ ?_ ?_ ?_ ?_
  · exact fun v other => update_of_ne other _ _
  · intro v other
    rw [State.of_eq, State.of_eq, held, bag_cons_ne (own ▸ Ne.symm other)]
    rfl
  · intro _
    simpa [State.set, State.of_eq] using acc
  · intro token member
    refine inv.owner_lt token ?_
    simp only [State.live, held, Multiset.map_cons, Multiset.cons_add]
    exact Multiset.mem_cons_of_mem member
  · simpa [State.set] using idle
  · simp [State.set, waiting]
  · intro place token member _
    rw [held]
    exact Multiset.mem_cons_of_mem member
  · simp [held]
  · intro several now
    obtain ⟨self, master, flags, none⟩ := quiet several now
    by_cases same : 0 = w
    · subst same
      exact ⟨by simpa [State.set] using self rfl, by simpa [State.set, idle] using flags, none⟩
    · exact ⟨by simpa [State.set, same] using master (Ne.symm same),
        by simpa [State.set, same] using flags, none⟩

private theorem still_quiet (inv : Inv n M a) {agent : Agent} (busy : agent.busy = (a.agent w).busy)
    (several : 2 ≤ n) (now : a.quiescent = true) : (w = 0 → agent.busy = true) ∧
      (w ≠ 0 → (a.agent 0).busy = true) ∧ (∀ side, (a.agent 0).idle side = true) ∧
      a.answers = 0 := by
  obtain ⟨before, flags, none⟩ := inv.quiet several now
  exact ⟨fun same => by rw [busy, same, before], fun _ => before, flags, none⟩

theorem forget (inv : Inv n M a) (held : a.tokens = (.hand w, r) ::ₘ rest) (own : r.owner = w) :
    Inv n M { a.set w { a.agent w with
        requested := (a.agent w).requested - 1, free := r.chan ::ₘ (a.agent w).free } with
      tokens := rest } := by
  have live := inv.hand_live (w := w) (r := r) (by rw [held]; exact Multiset.mem_cons_self _ _)
  have acc := inv.token_account held
  rw [own] at acc
  exact inv.retract a.quiescent held own (acc.forget live) rfl rfl (inv.still_quiet rfl)

theorem drop (inv : Inv n M a) (held : a.tokens = (.hand w, r) ::ₘ rest) (own : r.owner = w)
    (idle : r.state = .idle) (more : ¬ LastToken M (a.agent w) r)
    (below : ∀ side, (a.agent w).idle side = true) :
    Inv n M { a.set w { a.agent w with
        dropped := (a.agent w).dropped + 1, free := r.chan ::ₘ (a.agent w).free } with
      tokens := rest } := by
  have acc := inv.token_account held
  rw [own] at acc
  exact inv.retract a.quiescent held own (acc.drop idle below more) rfl rfl (inv.still_quiet rfl)

/-- When the master holds its last token nothing is on its way to anybody: below its two idle
flags everybody waits, with a token at its parent. -/
theorem last_answers (inv : Inv n M a) (worker : 0 < n) (held : a.tokens = (.hand 0, r) ::ₘ rest)
    (own : r.owner = 0) (last : LastToken M (a.agent 0) r) : a.answers = 0 := by
  refine Multiset.eq_zero_of_forall_notMem fun answer member => ?_
  have inside := inv.answer_owner_lt member
  by_cases master : answer.owner = 0
  · have acc := inv.token_account held
    rw [own] at acc
    have alone := (acc.last last).2.1
    have inBag : answer ∈ bag rest a.answers 0 :=
      Multiset.mem_filter.mpr ⟨Multiset.mem_add.mpr (.inr member), master⟩
    simp [alone] at inBag
  · obtain ⟨waiting, q, token, queued, owner⟩ := inv.all_wait worker last.2.1 inside master
    obtain ⟨others, shape⟩ := Multiset.exists_cons_of_mem queued
    exact (inv.no_other shape (owner.symm ▸ waiting)).2 answer member owner.symm

theorem detect (inv : Inv n M a) (worker : 0 < n) (held : a.tokens = (.hand 0, r) ::ₘ rest)
    (own : r.owner = 0) (last : LastToken M (a.agent 0) r) :
    Inv n M { a.set 0 { a.agent 0 with
        busy := true, requested := (a.agent 0).requested - 1
        free := r.chan ::ₘ (a.agent 0).free } with
      quiescent := true, tokens := rest } := by
  have acc := inv.token_account held
  rw [own] at acc
  refine inv.retract true held own (acc.detect last) rfl rfl fun _ _ => ?_
  exact ⟨fun _ => rfl, fun other => absurd rfl other, last.2.1,
    inv.last_answers worker held own last⟩

/-- Nobody but the master is busy after termination was detected. -/
private theorem awake (inv : Inv n M a) (worker : w < n) (busy : (a.agent w).busy = true)
    (awake : w = 0 → a.quiescent = false) (several : 2 ≤ n) : a.quiescent = false := by
  by_contra quiescent
  have quiescent : a.quiescent = true := by simpa using quiescent
  by_cases master : w = 0
  · rw [awake master] at quiescent
    cases quiescent
  · obtain ⟨-, flags, -⟩ := inv.quiet several quiescent
    have waiting := (inv.all_wait (by omega) flags worker master).1
    rw [((inv.account w worker).waits waiting).1] at busy
    cases busy

theorem answer (inv : Inv n M a) (worker : w < n) (held : a.tokens = (.hand w, r) ::ₘ rest)
    (busy : (a.agent w).busy = true) (awake : w = 0 → a.quiescent = false) :
    Inv n M { a with tokens := rest, answers := r ::ₘ a.answers } := by
  have same : ∀ v, bag rest (r ::ₘ a.answers) v = a.of v := by
    intro v
    rw [a.of_eq, held, bag_answer]
  refine inv.plain w (fun _ _ => rfl) (fun v _ => same v) ?_ ?_ rfl id ?_ ?_ ?_
  · intro inside
    rw [State.of_eq, same]
    exact inv.account w inside
  · intro token member
    refine inv.owner_lt token ?_
    simpa [State.live, held] using member
  · intro place token member _
    rw [held]
    exact Multiset.mem_cons_of_mem member
  · simp [held]
  · intro several quiescent
    rw [inv.awake worker busy awake several] at quiescent
    cases quiescent

theorem receive (inv : Inv n M a) {rest : Multiset Token} (held : a.answers = r ::ₘ rest)
    (own : r.owner = w) :
    Inv n M { a.set w { a.agent w with
        busy := true, waiting := false, dropped := 0
        requested := (if (a.agent w).waiting then 1
          else (a.agent w).requested - (a.agent w).dropped) - 1
        free := r.chan ::ₘ (a.agent w).free } with
      answers := rest } := by
  refine inv.plain w ?_ ?_ ?_ ?_ ?_ ?_ ?_ ?_ ?_
  · exact fun v other => update_of_ne other _ _
  · intro v other
    rw [State.of_eq, State.of_eq, held, bag_answer (.hand 0), bag_cons_ne (own ▸ Ne.symm other)]
    rfl
  · intro _
    have acc := (inv.answer_account held).receive
    rw [own] at acc
    simpa [State.set, State.of_eq] using acc
  · intro token member
    refine inv.owner_lt token ?_
    simp only [State.live, held, Multiset.add_cons]
    exact Multiset.mem_cons_of_mem member
  · simp [State.set]
  · simp [State.set]
  · exact fun _ _ member _ => member
  · simp [State.set]
  · intro several quiescent
    have none := (inv.quiet several quiescent).2.2
    rw [held] at none
    simp at none

theorem goIdle (inv : Inv n M a) (awake : w = 0 → a.quiescent = false) :
    Inv n M (a.set w { a.agent w with busy := false }) := by
  refine inv.plain w ?_ (fun _ _ => rfl) ?_ inv.owner_lt ?_ ?_ (fun _ _ member _ => member)
    (fun _ _ => Iff.rfl) ?_
  · exact fun v other => update_of_ne other _ _
  · intro inside
    simpa [State.set, State.of_eq] using (inv.account w inside).goIdle
  · simp [State.set]
  · simp [State.set]
  · intro several quiescent
    obtain ⟨busy, flags, none⟩ := inv.quiet several quiescent
    have other : 0 ≠ w := by
      rintro rfl
      rw [State.set, awake rfl] at quiescent
      cases quiescent
    exact ⟨by simpa [State.set, other] using busy, by simpa [State.set, other] using flags, none⟩

theorem setQuiescent (inv : Inv n M a) {quiescent : Bool} (fine : 2 ≤ n → quiescent = false) :
    Inv n M { a with quiescent := quiescent } := by
  refine ⟨inv.owner_lt, inv.account, inv.waits, inv.failed_place, inv.queue_failed,
    inv.lifeline, ?_⟩
  intro several now
  simp only [fine several] at now
  cases now

theorem retire (inv : Inv n M a) {q : ℕ} (worker : w < n)
    (held : a.tokens = (.hand w, r) ::ₘ rest) (own : r.owner = w)
    (last : LastToken M (a.agent w) r) (climbs : parent w = some q) :
    Inv n M { a.set w { a.agent w with waiting := true } with
      tokens := (.channel q, { r with state := .failed }) ::ₘ rest } := by
  have notMaster : 0 ≠ w := by
    have := parent_lt climbs
    omega
  have idle : ∀ v, (update a.agent w { a.agent w with waiting := true } v).idle =
      (a.agent v).idle := by
    intro v
    by_cases same : v = w
    · subst same
      simp
    · simp [same]
  refine ⟨?_, ?_, ?_, ?_, ?_, ?_, ?_⟩
  · intro token member
    simp only [State.live, State.set, Multiset.map_cons, Multiset.cons_add, Multiset.mem_cons]
      at member
    rcases member with rfl | member
    · exact own.symm ▸ worker
    · refine inv.owner_lt token ?_
      simp only [State.live, held, Multiset.map_cons, Multiset.cons_add]
      exact Multiset.mem_cons_of_mem member
  · intro v inside
    by_cases same : v = w
    · subst same
      have acc := inv.token_account held
      rw [own] at acc
      have mine : bag ((.channel q, { r with state := .failed }) ::ₘ rest) a.answers v =
          { r with state := .failed } ::ₘ bag rest a.answers v := bag_cons_self own
      simpa [State.set, State.of_eq, mine] using acc.retire last
    · have acc := inv.account v inside
      rw [State.of_eq, held, bag_cons_ne (own ▸ Ne.symm same)] at acc
      have others : bag ((.channel q, { r with state := .failed }) ::ₘ rest) a.answers v =
          bag rest a.answers v := bag_cons_ne (own ▸ Ne.symm same)
      simpa [State.set, State.of_eq, same, others] using acc
  · intro v waiting
    simp only [State.set, idle]
    by_cases same : v = w
    · subst same
      exact ⟨Ne.symm notMaster, worker, last.2.1⟩
    · simp only [State.set, update_of_ne same] at waiting
      exact inv.waits v waiting
  · intro place token member failed
    rcases Multiset.mem_cons.mp member with now | member
    · cases now
      exact ⟨q, own.symm ▸ climbs, .inl rfl⟩
    · exact inv.failed_place place token (held ▸ Multiset.mem_cons_of_mem member) failed
  · intro v token member
    rcases Multiset.mem_cons.mp member with now | member
    · cases now
    · exact inv.queue_failed v token (held ▸ Multiset.mem_cons_of_mem member)
  · intro v inside side
    simp only [State.set, idle]
    simpa [held] using inv.lifeline v inside side
  · intro several quiescent
    simpa [State.set, notMaster] using inv.quiet several quiescent

theorem adopt (inv : Inv n M a) (held : a.tokens = (.channel w, r) ::ₘ rest)
    (failed : r.state = .failed) (below : r.owner = child w side) :
    Inv n M { a.set w { a.agent w with
        idle := update (a.agent w).idle side true } with
      tokens := (.queue w, r) ::ₘ rest } := by
  have raised : ∀ side', (a.agent w).idle side' = true →
      update (a.agent w).idle side true side' = true := by
    intro side' idle
    by_cases same : side' = side
    · simp [same]
    · simp [same, idle]
  refine ⟨?_, ?_, ?_, ?_, ?_, ?_, ?_⟩
  · intro token member
    exact inv.owner_lt token (by simpa [State.live, State.set, held] using member)
  · intro v inside
    have acc := inv.account v inside
    have bags : bag ((.queue w, r) ::ₘ rest) a.answers v = a.of v := by
      rw [a.of_eq, held]
      simp [bag]
    by_cases same : v = w
    · subst same
      simpa [State.set, State.of_eq, bags] using acc.withIdle _
    · simpa [State.set, State.of_eq, bags, same] using acc
  · intro v waiting
    by_cases same : v = w
    · subst same
      simp only [State.set, update_self] at waiting ⊢
      obtain ⟨notMaster, inside, flags⟩ := inv.waits v waiting
      exact ⟨notMaster, inside, fun side' => raised side' (flags side')⟩
    · simp only [State.set, update_of_ne same] at waiting ⊢
      exact inv.waits v waiting
  · intro place token member now
    rcases Multiset.mem_cons.mp member with same | member
    · cases same
      exact ⟨w, below ▸ child_parent, .inr rfl⟩
    · exact inv.failed_place place token (held ▸ Multiset.mem_cons_of_mem member) now
  · intro v token member
    rcases Multiset.mem_cons.mp member with same | member
    · cases same
      exact failed
    · exact inv.queue_failed v token (held ▸ Multiset.mem_cons_of_mem member)
  · intro v inside side'
    have before := inv.lifeline v inside side'
    simp only [held, Multiset.mem_cons, Prod.mk.injEq, reduceCtorEq, false_and, false_or] at before
    by_cases same : v = w
    · subst same
      by_cases this : side' = side
      · subst this
        simp only [State.set, update_self, true_iff]
        exact .inr ⟨r, Multiset.mem_cons_self _ _, below⟩
      · have other : child v side ≠ child v side' := fun same => this (child_inj same).symm
        simp only [State.set, update_self, update_of_ne this, before,
          Multiset.mem_cons, Prod.mk.injEq, true_and]
        refine or_congr Iff.rfl (exists_congr fun token => and_congr_left fun owner => ?_)
        refine ⟨.inr, fun member => member.resolve_left ?_⟩
        rintro rfl
        exact other (below.symm.trans owner)
    · simp only [State.set, update_of_ne same, before, Multiset.mem_cons, Prod.mk.injEq,
        Place.queue.injEq, same, false_and, false_or]
  · intro several quiescent
    obtain ⟨busy, flags, none⟩ := inv.quiet several quiescent
    by_cases same : 0 = w
    · subst same
      exact ⟨by simpa [State.set] using busy,
        fun side' => by simpa [State.set] using raised side' (flags side'), none⟩
    · exact ⟨by simpa [State.set, same] using busy, by simpa [State.set, same] using flags, none⟩

theorem share (inv : Inv n M a) (worker : w < n) (held : a.tokens = (.queue w, r) ::ₘ rest)
    (below : r.owner = child w side) (busy : (a.agent w).busy = true)
    (awake : w = 0 → a.quiescent = false) :
    Inv n M { a.set w { a.agent w with
        idle := update (a.agent w).idle side false } with
      tokens := rest, answers := r ::ₘ a.answers } := by
  have queued : (Place.queue w, r) ∈ a.tokens := by
    rw [held]
    exact Multiset.mem_cons_self _ _
  have waiting := inv.failed_waits queued (inv.queue_failed _ _ queued)
  obtain ⟨alone, -⟩ := inv.no_other held waiting
  refine ⟨?_, ?_, ?_, ?_, ?_, ?_, ?_⟩
  · intro token member
    exact inv.owner_lt token (by simpa [State.live, State.set, held] using member)
  · intro v inside
    have acc := inv.account v inside
    have bags : bag rest (r ::ₘ a.answers) v = a.of v := by
      rw [a.of_eq, held, bag_answer]
    by_cases same : v = w
    · subst same
      simpa [State.set, State.of_eq, bags] using acc.withIdle _
    · simpa [State.set, State.of_eq, bags, same] using acc
  · intro v now
    by_cases same : v = w
    · subst same
      simp only [State.set, update_self] at now
      rw [((inv.account v worker).waits now).1] at busy
      cases busy
    · simp only [State.set, update_of_ne same] at now ⊢
      exact inv.waits v now
  · intro place token member now
    exact inv.failed_place place token (held ▸ Multiset.mem_cons_of_mem member) now
  · intro v token member
    exact inv.queue_failed v token (held ▸ Multiset.mem_cons_of_mem member)
  · intro v inside side'
    have before := inv.lifeline v inside side'
    simp only [held, Multiset.mem_cons, Prod.mk.injEq, Place.queue.injEq] at before
    by_cases same : v = w
    · subst same
      by_cases this : side' = side
      · subst this
        simp only [State.set, update_self, Bool.false_eq_true, false_iff, not_or]
        refine ⟨?_, ?_⟩
        · have := inv.token_owner_lt queued
          omega
        · rintro ⟨token, member, owner⟩
          exact alone _ token member (owner.trans below.symm)
      · have other : child v side ≠ child v side' := fun same => this (child_inj same).symm
        simp only [State.set, update_self, update_of_ne this, before, true_and]
        refine or_congr Iff.rfl (exists_congr fun token => and_congr_left fun owner => ?_)
        refine ⟨fun member => member.resolve_left ?_, .inr⟩
        rintro rfl
        exact other (below.symm.trans owner)
    · simp only [State.set, update_of_ne same, before, same, false_and, false_or]
  · intro several quiescent
    have awake : a.quiescent = false := inv.awake worker busy awake several
    simp only [State.set, awake] at quiescent
    cases quiescent

theorem step {a a' : State} (inv : Inv n M a) (next : Step n M a a') : Inv n M a' := by
  cases next with
  | post worker room taken fits => exact inv.post worker room taken fits
  | take held live same => exact inv.take held live same
  | adopt worker held failed below => exact inv.adopt held failed below
  | relay held => exact inv.relay held
  | forget worker held own => exact inv.forget held own
  | drop worker held own idle more below => exact inv.drop held own idle more below
  | retire worker held own last climbs => exact inv.retire worker held own last climbs
  | detect worker held own last => exact inv.detect worker held own last
  | answer worker held busy awake => exact inv.answer worker held busy awake
  | share worker held below busy awake => exact inv.share worker held below busy awake
  | receive worker held own => exact inv.receive held own
  | rest worker awake => exact inv.goIdle awake
  | resume => exact inv.setQuiescent fun _ => rfl
  | alone single => exact inv.setQuiescent fun several => by omega

end Inv

theorem reachable_inv {n M : ℕ} {a : State} (positive : 0 < M)
    (reached : (system n M).Reachable a) : Inv n M a := by
  refine reached.invariant ?_ ?_
  · rintro a rfl
    exact Inv.init positive
  · exact fun a a' _ inv next => inv.step next

end Tasking.TokenProtocol
