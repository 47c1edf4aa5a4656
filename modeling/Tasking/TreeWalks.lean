import Mathlib.Algebra.BigOperators.Group.Finset.Basic
import Tasking.VictimChoice

/-! The three ways `runtime.c` goes over a part of the worker tree: level by level
in `PEEK_REQ`, `RECV_REQ` and `COUNT_REQ`, child by child in `mark_as_idle`, and
upward along `parent`.  A recursion of the source is given fuel here and answers
`none` when the fuel runs out, so that "it ends" is something to prove. -/
namespace Tasking.TreeWalks
open Tasking.Runtime WorkerTree Lineage

variable {α β ρ : Type} {n w i fuel lvl : ℕ} {top : Option ℕ} {peek : ℕ → ℕ}

/-! ## Looking for a request, level by level -/

/-- The loop over one level: the first worker where something is found ends it.
The second component lists the workers whose channels were examined. -/
def scan (look : ℕ → Option β) : List ℕ → Option β × List ℕ
  | [] => (none, [])
  | i :: rest =>
    match look i with
    | some found => (some found, [i])
    | none => ((scan look rest).1, i :: (scan look rest).2)

/-- The workers `worker, …, min(worker + (1 << lvl), num_workers) - 1`. -/
def level (numWorkers worker lvl : ℕ) : List ℕ :=
  List.range' worker (min (worker + 2 ^ lvl) numWorkers - worker)

/-- What `PEEK_REQ` and the three-argument `RECV_REQ` have in common. -/
def levelSearch (numWorkers : ℕ) (look : ℕ → Option β) :
    (fuel : ℕ) → (worker : Option ℕ) → (lvl : ℕ) → Option (Option β × List ℕ)
  -- Valid worker ID?
  | _, none, _ => some (none, [])
  | 0, some _, _ => none
  | fuel + 1, some worker, lvl =>
    match scan look (level numWorkers worker lvl) with
    | (some found, seen) => some (some found, seen)
    | (none, seen) =>
      (levelSearch numWorkers look fuel (leftChild worker (numWorkers - 1)) (lvl + 1)).map
        fun deeper => (deeper.1, seen ++ deeper.2)

/-- `runtime.c::PEEK_REQ` under `BACKOFF`; `peek i` is `channel_peek(chan_requests[i])`. -/
def peekReq (numWorkers : ℕ) (peek : ℕ → ℕ) (fuel : ℕ) (worker : Option ℕ) (lvl : ℕ) :
    Option (Bool × List ℕ) :=
  (levelSearch numWorkers (fun i => if peek i = 0 then none else some ()) fuel worker lvl).map
    fun result => (result.1.isSome, result.2)

/-- `runtime.c::RECV_REQ(req, worker, lvl)`: the request received, with the
channel it was taken from. -/
def recvReq (numWorkers : ℕ) (chanRequests : ℕ → List ρ) (fuel : ℕ) (worker : Option ℕ) (lvl : ℕ) :
    Option (Option (ρ × ℕ) × List ℕ) :=
  levelSearch numWorkers (fun i => (chanRequests i).head?.map fun req => (req, i)) fuel worker lvl

theorem scan_append (look : ℕ → Option β) (before after : List ℕ) :
    scan look (before ++ after) =
      if (scan look before).1.isSome then scan look before
      else ((scan look after).1, (scan look before).2 ++ (scan look after).2) := by
  induction before with
  | nil => simp [scan]
  | cons i rest ih =>
    rw [List.cons_append, scan, ih]
    cases found : look i with
    | some b => simp [scan, found]
    | none =>
      simp only [scan, found]
      split <;> simp

theorem scan_none (look : ℕ → Option β) (workers : List ℕ) (nothing : ∀ i ∈ workers, look i =
    none) : scan look workers = (none, workers) := by
  induction workers with
  | nil => rfl
  | cons i rest ih =>
    rw [scan, nothing i List.mem_cons_self, ih fun j member =>
      nothing j (List.mem_cons_of_mem i member)]

/-- The recursion ends, and it has looked at the workers of the walk in order up
to the first success. -/
theorem levelSearch_eq (look : ℕ → Option β) (worker : w < n) (enough : n ≤ w + fuel) :
    levelSearch n look fuel (some w) lvl = some (scan look (levelWalk n fuel w lvl)) := by
  induction fuel generalizing w lvl with
  | zero => omega
  | succ fuel ih =>
    have positive : 0 < n := by omega
    rw [levelSearch, levelWalk, scan_append, ← level]
    rcases result : scan look (level n w lvl) with ⟨_ | found, seen⟩
    · cases next : leftChild w (n - 1) with
      | none =>
        cases fuel <;> simp [levelSearch, scan]
      | some c =>
        obtain ⟨rfl, inside⟩ := (leftChild_eq_some positive).mp next
        simp [ih inside (by omega)]
    · simp

/-! ## Marking a subtree as idle -/

/-- `runtime.c::mark_as_idle` with the victims as a set of worker IDs.  `unset`
lists the workers whose bits were cleared so far, in order. -/
def markAsIdle (numWorkers : ℕ) :
    (fuel : ℕ) → (victims : Finset ℕ) → (unset : List ℕ) → Option ℕ → Option (Finset ℕ × List ℕ)
  | _, victims, unset, none => some (victims, unset)
  | 0, _, _, some _ => none
  | fuel + 1, victims, unset, some n =>
    if numWorkers ≤ n then some (victims, unset)
    else do
      let (victims, unset) ← markAsIdle numWorkers fuel victims unset (leftChild n (numWorkers - 1))
      let (victims, unset) ← markAsIdle numWorkers fuel victims unset
        (rightChild n (numWorkers - 1))
      return (victims.erase n, unset ++ [n])

/-- The order in which the bits of a subtree are cleared. -/
def childFirst (numWorkers : ℕ) : (fuel : ℕ) → Option ℕ → List ℕ
  | _, none => []
  | 0, some _ => []
  | fuel + 1, some n =>
    childFirst numWorkers fuel (leftChild n (numWorkers - 1)) ++
      childFirst numWorkers fuel (rightChild n (numWorkers - 1)) ++ [n]

/-- The subtree of a worker that may be missing. -/
def Under (top : Option ℕ) (i : ℕ) : Prop := ∃ w, top = some w ∧ Subtree w i

/-- Among the existing workers a subtree is its top and the subtrees of the
children there are. -/
theorem subtree_split (positive : 0 < n) (inside : i < n) :
    Subtree w i ↔ Under (leftChild w (n - 1)) i ∨ Under (rightChild w (n - 1)) i ∨ i = w := by
  have child (c : ℕ) (below : Subtree c i) : c < n := (subtree_le below).trans_lt inside
  rw [subtree_iff]
  constructor
  · rintro (rfl | ⟨_ | _, below⟩)
    · exact .inr (.inr rfl)
    · exact .inl ⟨_, (leftChild_eq_some positive).mpr ⟨rfl, child _ below⟩, below⟩
    · exact .inr (.inl ⟨_, (rightChild_eq_some positive).mpr ⟨rfl, child _ below⟩, below⟩)
  · rintro (⟨c, next, below⟩ | ⟨c, next, below⟩ | rfl)
    · obtain ⟨rfl, -⟩ := (leftChild_eq_some positive).mp next
      exact .inr ⟨.left, below⟩
    · obtain ⟨rfl, -⟩ := (rightChild_eq_some positive).mp next
      exact .inr ⟨.right, below⟩
    · exact .inl rfl

/-- A worker other than the top, or none, with enough fuel for what is below it. -/
def Fuelled (n fuel : ℕ) (top : Option ℕ) : Prop := ∀ w, top = some w → w < n ∧ n ≤ w + fuel

theorem Fuelled.left (enough : Fuelled n (fuel + 1) (some w)) :
    Fuelled n fuel (leftChild w (n - 1)) := by
  intro c next
  have := enough w rfl
  obtain ⟨rfl, inside⟩ := (leftChild_eq_some (by omega)).mp next
  omega

theorem Fuelled.right (enough : Fuelled n (fuel + 1) (some w)) :
    Fuelled n fuel (rightChild w (n - 1)) := by
  intro c next
  have := enough w rfl
  obtain ⟨rfl, inside⟩ := (rightChild_eq_some (by omega)).mp next
  omega

theorem mem_childFirst (enough : Fuelled n fuel top) :
    i ∈ childFirst n fuel top ↔ i < n ∧ Under top i := by
  induction fuel generalizing top with
  | zero =>
    cases top with
    | none => simp [childFirst, Under]
    | some w =>
      have := enough w rfl
      omega
  | succ fuel ih =>
    cases top with
    | none => simp [childFirst, Under]
    | some w =>
      have worker := (enough w rfl).1
      have below : Under (some w) i ↔ Subtree w i := by simp [Under]
      rw [childFirst, List.mem_append, List.mem_append, ih enough.left, ih enough.right,
        List.mem_singleton, below]
      constructor
      · rintro ((⟨inside, left⟩ | ⟨inside, right⟩) | rfl)
        · exact ⟨inside, (subtree_split (by omega) inside).mpr (.inl left)⟩
        · exact ⟨inside, (subtree_split (by omega) inside).mpr (.inr (.inl right))⟩
        · exact ⟨worker, .here⟩
      · rintro ⟨inside, under⟩
        rcases (subtree_split (by omega) inside).mp under with left | right | top
        · exact .inl (.inl ⟨inside, left⟩)
        · exact .inl (.inr ⟨inside, right⟩)
        · exact .inr top

theorem childFirst_nodup (enough : Fuelled n fuel top) :
    (childFirst n fuel top).Nodup := by
  induction fuel generalizing top with
  | zero => cases top <;> exact .nil
  | succ fuel ih =>
    cases top with
    | none => exact .nil
    | some w =>
      have positive : 0 < n := (Nat.zero_le w).trans_lt (enough w rfl).1
      rw [childFirst, List.nodup_append, List.nodup_append]
      refine ⟨⟨ih enough.left, ih enough.right, ?_⟩, List.nodup_singleton w, ?_⟩
      · rintro i left _ right rfl
        obtain ⟨-, c, next, below⟩ := (mem_childFirst enough.left).mp left
        obtain ⟨-, d, next', below'⟩ := (mem_childFirst enough.right).mp right
        obtain ⟨rfl, -⟩ := (leftChild_eq_some positive).mp next
        obtain ⟨rfl, -⟩ := (rightChild_eq_some positive).mp next'
        exact subtrees_disjoint below below'
      · -- the top is above both children, so it is in neither subtree
        rintro i lower _ top rfl
        rw [List.mem_singleton] at top
        rcases List.mem_append.mp lower with left | right
        · obtain ⟨-, c, next, below⟩ := (mem_childFirst enough.left).mp left
          obtain ⟨rfl, -⟩ := (leftChild_eq_some positive).mp next
          have := subtree_le below
          omega
        · obtain ⟨-, c, next, below⟩ := (mem_childFirst enough.right).mp right
          obtain ⟨rfl, -⟩ := (rightChild_eq_some positive).mp next
          have := subtree_le below
          omega

/-- More fuel than needed makes no difference, so that the fuel says nothing about the walk. -/
theorem childFirst_fuel {fuel' : ℕ} (enough : Fuelled n fuel top) (enough' : Fuelled n fuel' top) :
    childFirst n fuel top = childFirst n fuel' top := by
  induction fuel generalizing fuel' top with
  | zero =>
    cases top with
    | none => cases fuel' <;> rfl
    | some w =>
      have := enough w rfl
      omega
  | succ fuel ih =>
    cases top with
    | none => cases fuel' <;> rfl
    | some w =>
      cases fuel' with
      | zero =>
        have := enough' w rfl
        omega
      | succ fuel' =>
        rw [childFirst, childFirst, ih enough.left enough'.left, ih enough.right enough'.right]

/-- The recursion ends, having cleared the bits of `childFirst` and no others. -/
theorem markAsIdle_eq {victims : Finset ℕ} {unset : List ℕ} (enough : Fuelled n fuel top) :
    markAsIdle n fuel victims unset top =
      some (victims \ (childFirst n fuel top).toFinset, unset ++ childFirst n fuel top) := by
  induction fuel generalizing top victims unset with
  | zero =>
    cases top with
    | none => simp [markAsIdle, childFirst]
    | some w =>
      have := enough w rfl
      omega
  | succ fuel ih =>
    cases top with
    | none => simp [markAsIdle, childFirst]
    | some w =>
      have worker := (enough w rfl).1
      rw [markAsIdle, if_neg (by omega), ih enough.left]
      simp only [Option.bind_eq_bind, Option.bind_some, ih enough.right, Option.pure_def,
        Option.some.injEq, Prod.mk.injEq, childFirst]
      constructor
      · ext i
        simp only [Finset.mem_erase, Finset.mem_sdiff, List.mem_toFinset, List.mem_append,
          List.mem_singleton]
        tauto
      · simp

/-- On the bit field the requests carry, the same bits are cleared. -/
theorem potentialVictim_markAsIdle_iff {victims : BitVec 32} (enough : Fuelled n fuel top) :
    potentialVictim (Runtime.markAsIdle n fuel victims top) i = true ↔
      potentialVictim victims i = true ∧ i ∉ childFirst n fuel top := by
  induction fuel generalizing top victims with
  | zero =>
    cases top with
    | none => simp [Runtime.markAsIdle, childFirst]
    | some w =>
      have := enough w rfl
      omega
  | succ fuel ih =>
    cases top with
    | none => simp [Runtime.markAsIdle, childFirst]
    | some w =>
      have worker := (enough w rfl).1
      rw [Runtime.markAsIdle, if_neg (by omega)]
      simp only [potentialVictim_clear, Bool.and_eq_true, decide_eq_true_eq, childFirst,
        List.mem_append, List.mem_singleton, ih enough.left, ih enough.right]
      tauto

/-- The parent and child functions undo each other, and give every worker but
the master one place in the tree. -/
structure TreeLinks (n : ℕ) : Prop where
  left_parent : ∀ p c, leftChild p (n - 1) = some c → parent c = some p
  right_parent : ∀ p c, rightChild p (n - 1) = some c → parent c = some p
  parent_child : ∀ c < n, ∀ p, parent c = some p → p < n ∧
    (leftChild p (n - 1) = some c ∧ rightChild p (n - 1) ≠ some c ∨
      rightChild p (n - 1) = some c ∧ leftChild p (n - 1) ≠ some c)
  root : parent 0 = none
  one_parent : ∀ c < n, c ≠ 0 → ∃! p, p < n ∧ parent c = some p

theorem treeLinks (positive : 0 < n) : TreeLinks n where
  left_parent := by
    intro p c next
    obtain ⟨rfl, -⟩ := (leftChild_eq_some positive).mp next
    exact parent_left p
  right_parent := by
    intro p c next
    obtain ⟨rfl, -⟩ := (rightChild_eq_some positive).mp next
    exact parent_right p
  parent_child := by
    intro c inside p climbs
    refine ⟨(parent_lt climbs).trans inside, ?_⟩
    rw [ne_eq, ne_eq, leftChild_eq_some positive, rightChild_eq_some positive]
    rcases parent_eq_some.mp climbs with rfl | rfl
    · left
      omega
    · right
      omega
  root := rfl
  one_parent := by
    intro c inside notMaster
    obtain ⟨p, climbs⟩ := exists_parent notMaster
    refine ⟨p, ⟨(parent_lt climbs).trans inside, climbs⟩, ?_⟩
    rintro q ⟨-, climbs'⟩
    rw [climbs] at climbs'
    exact (Option.some.inj climbs').symm

/-- All walks over the part of the tree below a worker meet the same workers,
those from which climbing reaches it, each of them once: `PEEK_REQ` and `RECV_REQ`
when every channel is empty, and `mark_as_idle`, which leaves the other bits as
they are.  Fuel for as many levels as there are workers is always enough. -/
theorem walks_agree (numWorkers : ℕ) (positive : 1 ≤ numWorkers) (w : ℕ) (worker : w < numWorkers) :
    ∃ examined unset : List ℕ,
      (∀ fuel ≥ numWorkers, ∀ peek : ℕ → ℕ, (∀ i, peek i = 0) →
        peekReq numWorkers peek fuel (some w) 0 = some (false, examined)) ∧
      (∀ fuel ≥ numWorkers, ∀ chanRequests : ℕ → List StealRequest, (∀ i, chanRequests i = []) →
        recvReq numWorkers chanRequests fuel (some w) 0 = some (none, examined)) ∧
      (∀ fuel ≥ numWorkers, ∀ victims : Finset ℕ, ∃ left,
        markAsIdle numWorkers fuel victims [] (some w) = some (left, unset) ∧
        ∀ i, i ∈ left ↔ i ∈ victims ∧ i ∉ unset) ∧
      (numWorkers ≤ 32 → ∀ victims : BitVec 32, ∀ i,
        (potentialVictim (Runtime.markAsIdle numWorkers numWorkers victims (some w)) i = true ↔
          potentialVictim victims i = true ∧ i ∉ unset)) ∧
      examined.Nodup ∧ unset.Nodup ∧
      (∀ i, i ∈ examined ↔ i < numWorkers ∧ Subtree w i) ∧
      (∀ i, i ∈ unset ↔ i < numWorkers ∧ Subtree w i) ∧
      TreeLinks numWorkers := by
  have enough (fuel : ℕ) (fuelled : fuel ≥ numWorkers) : Fuelled numWorkers fuel (some w) := by
    rintro _ ⟨⟩
    omega
  have walk (fuel : ℕ) (fuelled : fuel ≥ numWorkers) :
      levelWalk numWorkers fuel w 0 = levelWalk numWorkers numWorkers w 0 :=
    levelWalk_levels worker (by omega) (by omega)
  refine ⟨levelWalk numWorkers numWorkers w 0, childFirst numWorkers numWorkers (some w),
    ?_, ?_, ?_, ?_, ?_, childFirst_nodup (enough _ le_rfl), ?_, ?_, treeLinks positive⟩
  · intro fuel fuelled peek empty
    have nothing := scan_none (fun i => if peek i = 0 then none else some ())
      (levelWalk numWorkers fuel w 0) fun i _ => if_pos (empty i)
    rw [peekReq, levelSearch_eq _ worker (by omega), nothing, walk fuel fuelled]
    rfl
  · intro fuel fuelled chanRequests empty
    have nothing := scan_none (fun i => (chanRequests i).head?.map fun req => (req, i))
      (levelWalk numWorkers fuel w 0) fun i _ => by rw [empty i]; rfl
    rw [recvReq, levelSearch_eq _ worker (by omega), nothing, walk fuel fuelled]
  · intro fuel fuelled victims
    refine ⟨victims \ (childFirst numWorkers numWorkers (some w)).toFinset, ?_, ?_⟩
    · rw [markAsIdle_eq (enough fuel fuelled), List.nil_append,
        childFirst_fuel (enough fuel fuelled) (enough _ le_rfl)]
    · intro i
      rw [Finset.mem_sdiff, List.mem_toFinset]
  · intro _ victims i
    exact potentialVictim_markAsIdle_iff (enough _ le_rfl)
  · exact (levelWalk_sorted positive).imp fun before => ne_of_lt before
  · intro i
    exact mem_levelWalk (by omega)
  · intro i
    rw [mem_childFirst (enough _ le_rfl)]
    simp [Under]

/-- Six workers: below worker 1 are 3 and 4, the last level being incomplete. -/
theorem walks_agree_six : 1 ≤ 6 ∧ 1 < 6 ∧
    peekReq 6 (fun _ => 0) 6 (some 1) 0 = some (false, [1, 3, 4]) ∧
    ∃ examined unset : List ℕ,
      peekReq 6 (fun _ => 0) 6 (some 1) 0 = some (false, examined) ∧
      ∀ i, i ∈ examined ↔ i ∈ unset := by
  obtain ⟨examined, unset, peeks, -, -, -, -, -, inExamined, inUnset, -⟩ :=
    walks_agree 6 (by decide) 1 (by decide)
  refine ⟨by decide, by decide, by decide, examined, unset,
    peeks 6 (by decide) (fun _ => 0) fun _ => rfl, ?_⟩
  intro i
  rw [inExamined, inUnset]

/-! ## Counting the requests of a subtree -/

/-- `runtime.c::COUNT_REQ`.  What a level adds up to is never used: the function
returns what the recursive call returns, and the last call is for no worker. -/
def countReq (numWorkers : ℕ) (peek : ℕ → ℕ) : (fuel : ℕ) → (worker : Option ℕ) → (lvl : ℕ) →
    Option ℕ
  | _, none, _ => some 0
  | 0, some _, _ => none
  | fuel + 1, some worker, lvl =>
    let _ret := (level numWorkers worker lvl).foldl (fun ret i => (ret + peek i) % 2 ^ 32) 0
    countReq numWorkers peek fuel (leftChild worker (numWorkers - 1)) (lvl + 1)

/-- `num_idle` as `split_adaptive` computes it under `BACKOFF`. -/
def numIdle (numWorkers : ℕ) (peek : ℕ → ℕ) (fuel ID : ℕ) (leftSubtreeIsIdle rightSubtreeIsIdle :
    Bool) : Option ℕ := do
  let own := peek ID + 1
  let left ←
    if leftSubtreeIsIdle then countReq numWorkers peek fuel (leftChild ID (numWorkers - 1)) 0
    else some 0
  let right ←
    if rightSubtreeIsIdle then countReq numWorkers peek fuel (rightChild ID (numWorkers - 1)) 0
    else some 0
  return own + left + right

theorem numIdle_eq {ID a b : ℕ} {left right : Bool}
    (leftCount : left = true → countReq n peek fuel (leftChild ID (n - 1)) 0 = some a)
    (rightCount : right = true → countReq n peek fuel (rightChild ID (n - 1)) 0 = some b) :
    numIdle n peek fuel ID left right =
      some (peek ID + 1 + (if left then a else 0) + (if right then b else 0)) := by
  cases left <;> cases right <;> simp_all [numIdle]

open Classical in
/-- The requests pending in a subtree, which may be empty. -/
noncomputable def pendingIn (numWorkers : ℕ) (peek : ℕ → ℕ) (top : Option ℕ) : ℕ :=
  ∑ i ∈ (Finset.range numWorkers).filter (Under top), peek i

theorem countReq_eq_zero (peek : ℕ → ℕ) (enough : Fuelled n fuel top) :
    countReq n peek fuel top lvl = some 0 := by
  induction fuel generalizing top lvl with
  | zero =>
    cases top with
    | none => rfl
    | some w =>
      have := enough w rfl
      omega
  | succ fuel ih =>
    cases top with
    | none => rfl
    | some w =>
      rw [countReq]
      exact ih enough.left

theorem pendingIn_eq_zero :
    pendingIn n peek top = 0 ↔ ∀ i < n, Under top i → peek i = 0 := by
  simp [pendingIn]

theorem pendingIn_top {k : ℕ} (worker : w < n) :
    pendingIn n (fun i => if i = w then k else 0) (some w) = k := by
  classical
  have member : w < n ∧ Under (some w) w := ⟨worker, w, rfl, .here⟩
  simp [pendingIn, Finset.sum_ite_eq', member]

theorem Fuelled.of_workers (workers : ∀ w, top = some w → w < n) (fuelled : fuel ≥ n) :
    Fuelled n fuel top := by
  intro w known
  exact ⟨workers w known, by omega⟩

/-- The requests of a subtree, if it is idle. -/
noncomputable def pendingIdle (numWorkers : ℕ) (peek : ℕ → ℕ) (idle : Bool) (top : Option ℕ) : ℕ :=
  if idle then pendingIn numWorkers peek top else 0

theorem pendingIdle_eq_zero {idle : Bool} :
    pendingIdle n peek idle top = 0 ↔ (idle = true → pendingIn n peek top = 0) := by
  cases idle <;> simp [pendingIdle]

/-- `COUNT_REQ` counts the requests of a subtree if and only if there are none, and
`num_idle` is one more than the requests at the worker and in its idle subtrees if and
only if nothing is pending in these subtrees: what a level adds up to is dropped. -/
theorem countReq_counts_iff (numWorkers : ℕ) (positive : 1 ≤ numWorkers) (peek : ℕ → ℕ) (fuel : ℕ)
    (fuelled : fuel ≥ numWorkers) :
    (∀ w < numWorkers,
      countReq numWorkers peek fuel (some w) 0 = some (pendingIn numWorkers peek (some w)) ↔
        ∀ i < numWorkers, Subtree w i → peek i = 0) ∧
    (∀ ID < numWorkers, ∀ leftSubtreeIsIdle rightSubtreeIsIdle : Bool,
      numIdle numWorkers peek fuel ID leftSubtreeIsIdle rightSubtreeIsIdle =
          some (1 + (peek ID +
            pendingIdle numWorkers peek leftSubtreeIsIdle (leftChild ID (numWorkers - 1)) +
            pendingIdle numWorkers peek rightSubtreeIsIdle (rightChild ID (numWorkers - 1)))) ↔
        (leftSubtreeIsIdle = true →
          pendingIn numWorkers peek (leftChild ID (numWorkers - 1)) = 0) ∧
        (rightSubtreeIsIdle = true →
          pendingIn numWorkers peek (rightChild ID (numWorkers - 1)) = 0)) := by
  have drops (top : Option ℕ) (workers : ∀ w, top = some w → w < numWorkers) :
      countReq numWorkers peek fuel top 0 = some 0 :=
    countReq_eq_zero peek (.of_workers workers fuelled)
  constructor
  · intro w worker
    have dropped := drops (some w) fun _ known => Option.some.inj known ▸ worker
    rw [dropped, Option.some.injEq, eq_comm, pendingIn_eq_zero]
    simp only [Under, Option.some.injEq, exists_eq_left']
  · intro ID worker left right
    have leftDrops := drops (leftChild ID (numWorkers - 1)) fun w next =>
      ((leftChild_eq_some positive).mp next).2
    have rightDrops := drops (rightChild ID (numWorkers - 1)) fun w next =>
      ((rightChild_eq_some positive).mp next).2
    rw [numIdle_eq (fun _ => leftDrops) (fun _ => rightDrops), Option.some.injEq,
      ← pendingIdle_eq_zero, ← pendingIdle_eq_zero]
    simp only [ite_self]
    omega

/-- Two requests at the master itself and none below it. -/
theorem countReq_counts_master : 1 ≤ 3 ∧ 0 < 3 ∧
    pendingIn 3 (fun i => if i = 0 then 2 else 0) (leftChild 0 2) = 0 ∧
    pendingIn 3 (fun i => if i = 0 then 2 else 0) (rightChild 0 2) = 0 ∧
    numIdle 3 (fun i => if i = 0 then 2 else 0) 3 0 true true = some 3 := by
  have nothing (c : ℕ) (child : 0 < c) :
      pendingIn 3 (fun i => if i = 0 then 2 else 0) (some c) = 0 := by
    rw [pendingIn_eq_zero]
    rintro i - ⟨_, ⟨⟩, below⟩
    have := subtree_le below
    exact if_neg (by omega)
  have left := nothing 1 (by decide)
  have right := nothing 2 (by decide)
  have idle := ((countReq_counts_iff 3 (by decide) (fun i => if i = 0 then 2 else 0) 3
    (by decide)).2 0 (by decide) true true).mpr ⟨fun _ => left, fun _ => right⟩
  refine ⟨by decide, by decide, left, right, ?_⟩
  rw [idle]
  rw [show leftChild 0 (3 - 1) = some 1 from rfl, show rightChild 0 (3 - 1) = some 2 from rfl,
    pendingIdle_eq_zero.mpr fun _ => left, pendingIdle_eq_zero.mpr fun _ => right]
  rfl

/-- Worker 1 has gone idle with one request in its channel: its parent counts none,
and shares a loop among fewer thieves than there are. -/
theorem request_not_counted :
    pendingIn 3 (fun i => if i = 1 then 1 else 0) (some 1) = 1 ∧
    countReq 3 (fun i => if i = 1 then 1 else 0) 3 (some 1) 0 = some 0 ∧
    numIdle 3 (fun i => if i = 1 then 1 else 0) 3 0 true false = some 1 := by
  refine ⟨?_, by decide, by decide⟩
  exact pendingIn_top (by decide)

end Tasking.TreeWalks
