import Tasking.Abstraction
import Tasking.BitSet

/-! What `next_victim` chooses.  The set a request carries is a set of workers; the
functions that edit it and choose from it are described as such, and `next_victim` is
shown to run into no assertion when it is called for a request as it should be. -/
namespace Tasking.Runtime
open Fallible TokenProtocol WorkerTree BitSet

/-! ## Sets of victims -/

section Sets

variable {victims : BitVec 32} {n i : ℕ}

theorem potentialVictim_eq : potentialVictim victims n = victims.getLsbD n :=
  and_one_shiftLeft_ne_zero

@[simp] theorem potentialVictim_clear :
    potentialVictim (victims &&& ~~~ bit n) i = (potentialVictim victims i && decide (i ≠ n)) := by
  rw [potentialVictim_eq, potentialVictim_eq]
  exact getLsbD_clear

theorem potentialVictim_initVictims (few : n ≤ 32) :
    potentialVictim (initVictims n) i = decide (i < n) := by
  rw [potentialVictim_eq, initVictims]
  split
  · obtain rfl : n = 32 := by omega
    change (BitVec.allOnes 32).getLsbD i = _
    rw [BitVec.getLsbD_allOnes]
  · change (BitVec.allOnes 32 &&& (bit n - 1#32)).getLsbD i = _
    rw [BitVec.allOnes_and]
    exact getLsbD_low (by omega)

theorem eq_zero_iff_no_victim : victims = 0#32 ↔ ∀ i, potentialVictim victims i = false := by
  simp only [potentialVictim_eq]
  exact eq_zero_iff

theorem countOneBits_eq {rounds : ℕ} (enough : victims.toNat.bitIndices.length ≤ rounds) :
    countOneBits rounds victims = victims.toNat.bitIndices.length := by
  induction rounds generalizing victims with
  | zero => exact (Nat.le_zero.mp enough).symm
  | succ rounds ih =>
    rw [countOneBits]
    split
    · next zero => simp [zero]
    · next some =>
      have one := length_bitIndices_and_sub_one some
      rw [ih (by omega), one]

theorem listVictims_eq {rounds : ℕ} (small : victims.toNat < 2 ^ rounds) :
    listVictims rounds i victims = victims.toNat.bitIndices.map (· + i) := by
  induction rounds generalizing victims i with
  | zero =>
    have zero : victims.toNat = 0 := by simpa using small
    simp [listVictims, zero]
  | succ rounds ih =>
    rw [listVictims]
    split
    · next zero => simp [zero]
    · have half : (victims >>> 1).toNat < 2 ^ rounds := by
        rw [BitVec.toNat_ushiftRight, Nat.shiftRight_one]
        omega
      rw [ih half, potentialVictim_eq, bitIndices_shift victims]

theorem listVictims_all : listVictims 32 0 victims = victims.toNat.bitIndices := by
  rw [listVictims_eq victims.isLt]
  simp

theorem countOneBits_all : countOneBits 32 victims = victims.toNat.bitIndices.length :=
  countOneBits_eq (length_bitIndices_le victims.isLt)

theorem mem_listVictims : i ∈ victims.toNat.bitIndices ↔ potentialVictim victims i = true := by
  rw [potentialVictim_eq, Nat.mem_bitIndices]
  rfl

end Sets

/-! ## Idle subtrees -/

section Subtrees

variable {cfg : Config} {x : Worker} {victims : BitVec 32} {n w i : ℕ}

/-- A subtree is its top and the subtrees of the two children. -/
theorem subtree_iff : Subtree w i ↔ i = w ∨ ∃ side, Subtree (child w side) i := by
  constructor
  · intro below
    rcases below.eq_or_under_child with rfl | ⟨c, climbs, lower⟩
    · exact .inl rfl
    · rcases parent_eq_some.mp climbs with rfl | rfl
      · exact .inr ⟨.left, lower⟩
      · exact .inr ⟨.right, lower⟩
  · rintro (rfl | ⟨side, lower⟩)
    · exact .here
    · exact Lineage.Below.trans (.child .here child_parent) lower

theorem markAsIdle_none {depth : ℕ} : markAsIdle n depth victims none = victims := by
  cases depth <;> rfl

/-- Exactly the workers of the subtree are taken out. -/
theorem potentialVictim_markAsIdle {depth : ℕ} (deep : n ≤ w + depth) (worker : i < n) :
    potentialVictim (markAsIdle n depth victims (some w)) i = true ↔
      potentialVictim victims i = true ∧ ¬ Subtree w i := by
  induction depth generalizing w victims with
  | zero =>
    have above : ¬ Subtree w i := fun below => by
      have := subtree_le below
      omega
    simp [markAsIdle, above]
  | succ depth ih =>
    rw [markAsIdle]
    split
    · next outside =>
      have above : ¬ Subtree w i := fun below => by
        have := subtree_le below
        omega
      simp [above]
    · next inside =>
      have half (side : Side) (child_ : Option ℕ)
          (exist : ∀ c, child_ = some c → c = child w side)
          (missing : child_ = none → n ≤ child w side) (victims : BitVec 32) :
          potentialVictim (markAsIdle n depth victims child_) i = true ↔
            potentialVictim victims i = true ∧ ¬ Subtree (child w side) i := by
        cases child_ with
        | none =>
          have above : ¬ Subtree (child w side) i := fun below => by
            have := subtree_le below
            have := missing rfl
            omega
          simp [markAsIdle_none, above]
        | some c =>
          obtain rfl := exist c rfl
          apply ih
          cases side <;> simp only [child] <;> omega
      have positive : 0 < n := by omega
      simp only [potentialVictim_clear, Bool.and_eq_true, decide_eq_true_eq]
      rw [half .right, half .left, subtree_iff (w := w)]
      · constructor
        · rintro ⟨⟨⟨old, left⟩, right⟩, differ⟩
          refine ⟨old, ?_⟩
          rintro (same | ⟨side, lower⟩)
          · exact differ same
          · cases side with
            | left => exact left lower
            | right => exact right lower
        · rintro ⟨old, above⟩
          rw [not_or, not_exists] at above
          exact ⟨⟨⟨old, above.2 .left⟩, above.2 .right⟩, above.1⟩
      · intro c known
        exact ((leftChild_eq_some positive).mp known).1
      · exact (leftChild_eq_none positive).mp
      · intro c known
        exact ((rightChild_eq_some positive).mp known).1
      · exact (rightChild_eq_none positive).mp

/-- The handler knows that everybody in the subtree on one side of it is idle. -/
def Worker.SeesIdle (x : Worker) (w i : ℕ) : Prop :=
  ∃ side, x.flag side = true ∧ Subtree (child w side) i

def Config.childOf (cfg : Config) (w : ℕ) : Side → Option ℕ
  | .left => cfg.leftChild w
  | .right => cfg.rightChild w

theorem childOf_eq_some {c : ℕ} {side : Side} (known : cfg.childOf w side = some c) :
    c = child w side := by
  cases side with
  | left => exact ((leftChild_eq_some cfg.someWorker).mp known).1
  | right => exact ((rightChild_eq_some cfg.someWorker).mp known).1

theorem childOf_eq_none {side : Side} (missing : cfg.childOf w side = none) :
    cfg.numWorkers ≤ child w side := by
  cases side with
  | left => exact (leftChild_eq_none cfg.someWorker).mp missing
  | right => exact (rightChild_eq_none cfg.someWorker).mp missing

theorem potentialVictim_markChild (side : Side) (worker : i < cfg.numWorkers) :
    potentialVictim (markAsIdle cfg.numWorkers cfg.numWorkers victims (cfg.childOf w side)) i =
      true ↔ potentialVictim victims i = true ∧ ¬ Subtree (child w side) i := by
  cases known : cfg.childOf w side with
  | none =>
    have missing := childOf_eq_none known
    have above : ¬ Subtree (child w side) i := fun below => by
      have := subtree_le below
      omega
    simp [markAsIdle_none, above]
  | some c =>
    obtain rfl := childOf_eq_some known
    exact potentialVictim_markAsIdle (by omega) worker

theorem markAsIdle_subset {depth : ℕ} {top : Option ℕ}
    (left : potentialVictim (markAsIdle n depth victims top) i = true) :
    potentialVictim victims i = true := by
  induction depth generalizing victims top with
  | zero => cases top <;> exact left
  | succ depth ih =>
    cases top with
    | none => exact left
    | some w =>
      rw [markAsIdle] at left
      split at left
      · exact left
      · rw [potentialVictim_clear, Bool.and_eq_true] at left
        exact ih (ih left.1)

theorem prune_subset (left : potentialVictim (prune cfg w x victims) i = true) :
    potentialVictim victims i = true := by
  rw [prune] at left
  split at left
  · exact markAsIdle_subset left
  · split at left
    · exact markAsIdle_subset left
    · split at left
      · exact markAsIdle_subset left
      · exact left

/-- Pruning takes out whoever the handler sees idle, and nobody else. -/
theorem potentialVictim_prune (self : potentialVictim victims w = false)
    (worker : i < cfg.numWorkers) :
    potentialVictim (prune cfg w x victims) i = true ↔
      potentialVictim victims i = true ∧ ¬ x.SeesIdle w i := by
  rw [prune]
  cases left : x.leftSubtreeIsIdle <;> cases right : x.rightSubtreeIsIdle
  · have none_ : ¬ x.SeesIdle w i := by
      rintro ⟨side, flag, -⟩
      cases side <;> simp [Worker.flag, left, right] at flag
    simp [none_]
  · have idle : x.SeesIdle w i ↔ Subtree (child w .right) i := by
      constructor
      · rintro ⟨side, flag, below⟩
        cases side with
        | left => simp [Worker.flag, left] at flag
        | right => exact below
      · exact fun below => ⟨.right, right, below⟩
    rw [idle]
    exact potentialVictim_markChild .right worker
  · have idle : x.SeesIdle w i ↔ Subtree (child w .left) i := by
      constructor
      · rintro ⟨side, flag, below⟩
        cases side with
        | left => exact below
        | right => simp [Worker.flag, right] at flag
      · exact fun below => ⟨.left, left, below⟩
    rw [idle]
    exact potentialVictim_markChild .left worker
  · simp only [Bool.and_self, if_true]
    rw [potentialVictim_markAsIdle (by omega) worker, subtree_iff]
    constructor
    · rintro ⟨old, above⟩
      refine ⟨old, ?_⟩
      rintro ⟨side, -, below⟩
      exact above (.inr ⟨side, below⟩)
    · rintro ⟨old, above⟩
      refine ⟨old, ?_⟩
      rintro (rfl | ⟨side, below⟩)
      · rw [self] at old
        cases old
      · refine above ⟨side, ?_, below⟩
        cases side
        · exact left
        · exact right

end Subtrees

/-! ## The choice -/

section Choice

variable {cfg : Config} {x : Worker} {victims : BitVec 32} {w v ID : ℕ} {rand : List ℕ}
  {req req' : StealRequest}

/-- There is a worker that is not a victim, so there are fewer victims than workers. -/
theorem countOneBits_lt {numWorkers : ℕ}
    (below : ∀ i, potentialVictim victims i = true → i < numWorkers) (worker : w < numWorkers)
    (self : potentialVictim victims w = false) : countOneBits 32 victims < numWorkers := by
  have distinct : (w :: victims.toNat.bitIndices).Nodup := by
    refine List.nodup_cons.mpr ⟨fun known => ?_, Nat.bitIndices_nodup⟩
    rw [mem_listVictims, self] at known
    cases known
  have within : (w :: victims.toNat.bitIndices) ⊆ List.range numWorkers := by
    intro i known
    rw [List.mem_range]
    rcases List.mem_cons.mp known with rfl | known
    · exact worker
    · exact below i (mem_listVictims.mp known)
  have short := (List.subperm_of_subset distinct within).length_le
  rw [List.length_cons, List.length_range] at short
  rw [countOneBits_all]
  exact short

theorem countOneBits_pos (some_ : victims ≠ 0#32) : 0 < countOneBits 32 victims := by
  rw [countOneBits_all, List.length_pos_iff]
  intro empty
  apply some_
  rw [eq_zero_iff_no_victim]
  intro i
  cases known : potentialVictim victims i with
  | false => rfl
  | true =>
    rw [← mem_listVictims, empty] at known
    cases known

/-- `random_victim` finds a victim if there is one. -/
theorem randomVictim_spec {numWorkers : ℕ}
    (below : ∀ i, potentialVictim victims i = true → i < numWorkers) (worker : w < numWorkers)
    (self : potentialVictim victims w = false) (sender : potentialVictim victims ID = false) :
    Ensures (fun _ => False) (randomVictim numWorkers rand victims ID) fun choice =>
      (choice = none → victims = 0#32) ∧
        ∀ v, choice = some v → potentialVictim victims v = true := by
  rw [randomVictim]
  split
  · next empty => exact ⟨fun _ => empty, by simp⟩
  · next some_ =>
    have positive := countOneBits_pos some_
    have few := countOneBits_lt below worker self
    have found {k : ℕ} (inside : k < countOneBits 32 victims) :
        potentialVictim victims (victims.toNat.bitIndices.getD k 0) = true := by
      rw [countOneBits_all] at inside
      rw [← mem_listVictims, List.getD_eq_getElem _ _ inside]
      exact List.getElem_mem inside
    have last := found (Nat.mod_lt (rand.getD 3 0) positive)
    have differ :
        victims.toNat.bitIndices.getD (rand.getD 3 0 % countOneBits 32 victims) 0 ≠ ID := by
      intro same
      rw [same, sender] at last
      cases last
    simp only [ensures_ite, ensures_bind, ensures_check, ensures_pure, listVictims_all]
    have guess {i : ℕ} (fits : (potentialVictim victims i && i != ID) = true) :
        (some i = none → victims = 0#32) ∧
          ∀ v, some i = some v → potentialVictim victims v = true := by
      refine ⟨by simp, ?_⟩
      rintro v ⟨⟩
      exact (Bool.and_eq_true_iff.mp fits).1
    refine ⟨guess, fun _ => ⟨guess, fun _ => ⟨guess, fun _ => ?_⟩⟩⟩
    refine ⟨fun _ => ⟨fun _ => ⟨fun _ => ⟨fun _ => ?_, ?_⟩, ?_⟩, ?_⟩, ?_⟩
    · refine ⟨by simp, ?_⟩
      rintro v ⟨⟩
      exact last
    · exact fun wrong => wrong ⟨below _ last, differ⟩
    · exact fun wrong => wrong last
    · exact fun wrong => wrong countOneBits_all.symm
    · exact fun wrong => wrong ⟨positive, few⟩

/-- How worker `w` calls `next_victim`: for a request of its own that starts to
circulate, or for one that others have passed on fewer times than they may. -/
structure Call (cfg : Config) (w : ℕ) (req : StealRequest) : Prop where
  worker : w < cfg.numWorkers
  sender : req.ID < cfg.numWorkers
  below : ∀ i, potentialVictim req.victims i = true → i < cfg.numWorkers
  tries : req.tries ≤ cfg.maxStealAttempts
  own_iff : req.ID = w ↔ req.tries = 0
  unset : req.ID ≠ w → potentialVictim req.victims req.ID = false
  full : req.ID = w → ∀ i < cfg.numWorkers, potentialVictim req.victims i = true

/-- The request `req` that worker `w` passes on to `v` as `req'`. -/
structure Chosen (cfg : Config) (w : ℕ) (x : Worker) (req : StealRequest) (v : ℕ)
    (req' : StealRequest) : Prop where
  same : ∃ victims, req' = { req with victims := victims }
  target : v < cfg.numWorkers
  subset : ∀ i, potentialVictim req'.victims i = true → potentialVictim req.victims i = true
  self : potentialVictim req'.victims w = false
  choice : v = req.ID ∨ potentialVictim req'.victims v = true
  limit : req.tries = cfg.maxStealAttempts → v = req.ID
  pruned : req.tries ≠ cfg.maxStealAttempts → ∀ i < cfg.numWorkers,
    (potentialVictim req'.victims i = true ↔
      potentialVictim req.victims i = true ∧ i ≠ w ∧ ¬ x.SeesIdle w i)
  empty : req.tries ≠ cfg.maxStealAttempts → v = req.ID → req'.victims = 0#32

theorem Call.sender_unset (call : Call cfg w req) :
    potentialVictim (req.victims &&& ~~~ bit w) req.ID = false := by
  rw [potentialVictim_clear]
  by_cases own : req.ID = w
  · simp [own]
  · simp [call.unset own]

/-- A worker is not below itself, and the master is below nobody. -/
theorem not_seesIdle_master : ¬ x.SeesIdle w 0 := by
  rintro ⟨side, -, below⟩
  have := subtree_le below
  cases side <;> simp [child] at this

theorem pickVictim_spec (call : Call cfg w req) :
    Ensures (fun _ => False) (pickVictim cfg rand w x req) fun out =>
      (∀ i, potentialVictim out.2 i = true → potentialVictim req.victims i = true) ∧
      potentialVictim out.2 w = false ∧ potentialVictim out.2 req.ID = false ∧
      (req.tries = cfg.maxStealAttempts → out.1 = some req.ID) ∧
      (req.tries ≠ cfg.maxStealAttempts → (∀ i < cfg.numWorkers, (potentialVictim out.2 i = true ↔
        potentialVictim req.victims i = true ∧ i ≠ w ∧ ¬ x.SeesIdle w i)) ∧
        (out.1 = none → out.2 = 0#32) ∧
        ∀ v, out.1 = some v → potentialVictim out.2 v = true) := by
  have cleared {i : ℕ} : potentialVictim (req.victims &&& ~~~ bit w) i = true ↔
      potentialVictim req.victims i = true ∧ i ≠ w := by
    rw [potentialVictim_clear, Bool.and_eq_true, decide_eq_true_eq]
  have self : potentialVictim (req.victims &&& ~~~ bit w) w = false := by
    simp
  simp only [pickVictim]
  split
  · next limit =>
    refine ⟨fun i known => (cleared.mp known).1, self, call.sender_unset, fun _ => rfl,
      fun wrong => absurd limit wrong⟩
  · next more =>
    have prunedSelf : potentialVictim (prune cfg w x (req.victims &&& ~~~ bit w)) w = false := by
      rw [← Bool.not_eq_true]
      exact fun known => absurd (prune_subset known) (by simp)
    have prunedSender :
        potentialVictim (prune cfg w x (req.victims &&& ~~~ bit w)) req.ID = false := by
      rw [← Bool.not_eq_true]
      exact fun known => absurd (prune_subset known) (by simp [call.sender_unset])
    have subset {i : ℕ} (known : potentialVictim (prune cfg w x (req.victims &&& ~~~ bit w)) i =
        true) : potentialVictim req.victims i = true := (cleared.mp (prune_subset known)).1
    have exactly : ∀ i < cfg.numWorkers,
        (potentialVictim (prune cfg w x (req.victims &&& ~~~ bit w)) i = true ↔
          potentialVictim req.victims i = true ∧ i ≠ w ∧ ¬ x.SeesIdle w i) := by
      intro i worker
      rw [potentialVictim_prune self worker, cleared, and_assoc]
    simp only [ensures_bind, ensures_check]
    refine ⟨fun _ => ⟨fun _ => ?_, ?_⟩, ?_⟩
    · split
      · next last known =>
        -- the remembered worker is a potential victim
        have usable : potentialVictim (prune cfg w x (req.victims &&& ~~~ bit w)) last = true := by
          unfold remembered at known
          split at known
          · cases known
          all_goals
            simp only [Option.ite_none_right_eq_some, Option.some.injEq] at known
            obtain ⟨⟨-, set⟩, rfl⟩ := known
            exact set
        refine ⟨fun i => subset, prunedSelf, prunedSender, fun limit => absurd limit more,
          fun _ => ⟨exactly, by simp, ?_⟩⟩
        rintro v ⟨⟩
        exact usable
      · rw [ensures_bind]
        refine (randomVictim_spec (fun i known => call.below i (subset known)) call.worker
          prunedSelf prunedSender).mono ?_
        rintro choice ⟨nobody, somebody⟩
        exact ⟨fun i => subset, prunedSelf, prunedSender, fun limit => absurd limit more,
          fun _ => ⟨exactly, nobody, somebody⟩⟩
    · exact fun wrong => wrong (by simp [prunedSelf])
    · intro wrong
      apply wrong
      by_cases own : req.ID = w
      · exact .inl ⟨call.own_iff.mp own, own⟩
      · exact .inr ⟨Nat.pos_of_ne_zero fun zero => own (call.own_iff.mpr zero), own⟩

/-- `next_victim` called as it should be runs into no assertion. -/
theorem nextVictim_spec (call : Call cfg w req) :
    Ensures (fun _ => False) (nextVictim cfg rand w x req) fun out =>
      Chosen cfg w x req out.1 out.2 := by
  simp only [nextVictim, ensures_bind]
  refine (pickVictim_spec call).mono ?_
  rintro ⟨choice, victims⟩ ⟨subset, self, sender, limit, otherwise⟩
  dsimp only at subset self sender limit otherwise
  cases choice with
  | some v =>
    simp only [returnToSender, ensures_pure, ensures_check]
    have inside : v < cfg.numWorkers := by
      by_cases last : req.tries = cfg.maxStealAttempts
      · obtain rfl : v = req.ID := Option.some.inj (limit last)
        exact call.sender
      · exact call.below v (subset v ((otherwise last).2.2 v rfl))
    refine ⟨fun _ => ⟨fun _ => ?_, fun wrong => wrong call.tries⟩, fun wrong => wrong inside⟩
    refine ⟨⟨victims, rfl⟩, inside, subset, self, ?_, fun last => Option.some.inj (limit last),
      fun more => (otherwise more).1, fun more home => ?_⟩
    · by_cases last : req.tries = cfg.maxStealAttempts
      · exact .inl (Option.some.inj (limit last))
      · exact .inr ((otherwise last).2.2 v rfl)
    · have set := (otherwise more).2.2 v rfl
      rw [home, sender] at set
      cases set
  | none =>
    have more : req.tries ≠ cfg.maxStealAttempts := fun last => by
      cases limit last
    obtain ⟨exactly, empty, -⟩ := otherwise more
    have empty := empty rfl
    simp only [returnToSender, ensures_bind, ensures_pure, ensures_check]
    refine ⟨fun _ => ⟨fun _ => ⟨fun _ => ⟨fun _ => ?_, fun wrong => wrong call.tries⟩,
      fun wrong => wrong call.sender⟩, ?_⟩, fun wrong => wrong empty⟩
    · exact ⟨⟨victims, rfl⟩, call.sender, subset, self, .inl rfl, fun _ => rfl,
        fun _ => exactly, fun _ _ => empty⟩
    · -- the master is always left to ask
      intro wrong
      rw [not_or, not_not] at wrong
      have set : potentialVictim victims 0 = true := (exactly 0 cfg.someWorker).mpr
        ⟨call.full wrong.1 0 cfg.someWorker, fun same => wrong.2 same.symm, not_seesIdle_master⟩
      rw [eq_zero_iff_no_victim.mp empty 0] at set
      cases set

/-- A worker other than the master does not ask itself. -/
theorem Chosen.not_self (chosen : Chosen cfg w x req v req') (call : Call cfg w req)
    (own : req.ID = w) (other : w ≠ 0) (several : 1 < cfg.numWorkers) : v ≠ w := by
  have more : req.tries ≠ cfg.maxStealAttempts := by
    rw [call.own_iff.mp own, Config.maxStealAttempts]
    omega
  rintro rfl
  have set : potentialVictim req'.victims 0 = true := (chosen.pruned more 0 cfg.someWorker).mpr
    ⟨call.full own 0 cfg.someWorker, fun same => other same.symm, not_seesIdle_master⟩
  rw [eq_zero_iff_no_victim.mp (chosen.empty more own.symm) 0] at set
  cases set

/-- The sender is never a potential victim. -/
theorem Chosen.sender_unset (chosen : Chosen cfg w x req v req') (call : Call cfg w req) :
    potentialVictim req'.victims req.ID = false := by
  by_cases own : req.ID = w
  · rw [own]
    exact chosen.self
  · rw [← Bool.not_eq_true]
    exact fun known => absurd (chosen.subset _ known) (by simp [call.unset own])

end Choice
end Tasking.Runtime
