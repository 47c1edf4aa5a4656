import Tasking.RuntimeState

/-! Choosing whom to ask: the bit set of potential victims a steal request
carries, and `next_victim`.  The values `rand_r` returns are an input. -/
namespace Tasking.Runtime
open Fallible

/-- `BIT(n)`.  C leaves the shift undefined for `n` from 32 on, so that what is proved
about sets of victims is for at most 32 workers. -/
def bit (n : ℕ) : BitVec 32 := 1#32 <<< n

/-- `INIT_VICTIMS`, with `BIT_MASK_32`. -/
def initVictims (numWorkers : ℕ) : BitVec 32 :=
  0xFFFFFFFF#32 &&& (if 32 ≤ numWorkers then -1#32 else bit numWorkers - 1#32)

/-- `POTENTIAL_VICTIM(victims, n)`. -/
def potentialVictim (victims : BitVec 32) (n : ℕ) : Bool := victims &&& bit n != 0#32

/-- `mark_as_idle`.  The recursion goes down the worker tree, so it is never
deeper than there are workers. -/
def markAsIdle (numWorkers : ℕ) : (depth : ℕ) → BitVec 32 → Option ℕ → BitVec 32
  | _, victims, none => victims
  | 0, victims, some _ => victims
  | depth + 1, victims, some n =>
    if numWorkers ≤ n then victims
    else
      let victims := markAsIdle numWorkers depth victims (WorkerTree.leftChild n (numWorkers - 1))
      let victims := markAsIdle numWorkers depth victims (WorkerTree.rightChild n (numWorkers - 1))
      victims &&& ~~~ bit n

/-- `count_one_bits`: every round clears a bit, so 32 rounds are enough. -/
def countOneBits : (rounds : ℕ) → BitVec 32 → ℕ
  | 0, _ => 0
  | rounds + 1, n => if n = 0#32 then 0 else countOneBits rounds (n &&& (n - 1#32)) + 1

/-- The loop of `random_victim` that lists the potential victims: `i` counts the
shifts, and 32 of them empty the set. -/
def listVictims : (rounds i : ℕ) → BitVec 32 → List ℕ
  | 0, _, _ => []
  | rounds + 1, i, n =>
    if n = 0#32 then []
    else if potentialVictim n 0 then i :: listVictims rounds (i + 1) (n >>> 1)
    else listVictims rounds (i + 1) (n >>> 1)

/-- `random_victim`: three guesses, then a choice from the list of all potential
victims.  -1 is `none`. -/
def randomVictim (numWorkers : ℕ) (rand : List ℕ) (victims : BitVec 32) (ID : ℕ) :
    Checked (Option ℕ) := do
  if victims = 0#32 then return none
  let guess (i : ℕ) := rand.getD i 0 % numWorkers
  let fits (victim : ℕ) : Bool := potentialVictim victims victim && victim != ID
  if fits (guess 0) then return some (guess 0)
  if fits (guess 1) then return some (guess 1)
  if fits (guess 2) then return some (guess 2)
  let numVictims := countOneBits 32 victims
  check (0 < numVictims ∧ numVictims < numWorkers) .randomVictimCount
  let potentialVictims := listVictims 32 0 victims
  check (potentialVictims.length = numVictims) .randomVictimBits
  let victim := potentialVictims.getD (rand.getD 3 0 % numVictims) 0
  check (potentialVictim victims victim) .randomVictimBits
  check (victim < numWorkers ∧ victim ≠ ID) .randomVictimResult
  return some victim

/-- `last_victim` or `last_thief`, if the policy uses one and it is a potential
victim. -/
def remembered (cfg : Config) (x : Worker) (victims : BitVec 32) : Option ℕ :=
  let usable (last : ℤ) : Option ℕ :=
    if last ≠ -1 ∧ potentialVictim victims last.toNat then some last.toNat else none
  match cfg.victims with
  | .random => none
  | .lastVictim => usable x.lastVictim
  | .lastThief => usable x.lastThief

/-- The part of `next_victim` that prunes subtrees known to be idle. -/
def prune (cfg : Config) (ID : ℕ) (x : Worker) (victims : BitVec 32) : BitVec 32 :=
  if x.leftSubtreeIsIdle && x.rightSubtreeIsIdle then
    markAsIdle cfg.numWorkers cfg.numWorkers victims (some ID)
  else if x.leftSubtreeIsIdle then
    markAsIdle cfg.numWorkers cfg.numWorkers victims (cfg.leftChild ID)
  else if x.rightSubtreeIsIdle then
    markAsIdle cfg.numWorkers cfg.numWorkers victims (cfg.rightChild ID)
  else victims

/-- The first half of `next_victim`: the victim it picks, if any, and the set it
picked from. -/
def pickVictim (cfg : Config) (rand : List ℕ) (ID : ℕ) (x : Worker) (req : StealRequest) :
    Checked (Option ℕ × BitVec 32) := do
  let victims := req.victims &&& ~~~ bit ID
  if req.tries = cfg.maxStealAttempts then return (some req.ID, victims)
  check ((req.tries = 0 ∧ req.ID = ID) ∨ (0 < req.tries ∧ req.ID ≠ ID)) .nextVictimTry
  let victims := prune cfg ID x victims
  check (!potentialVictim victims ID) .nextVictimSelf
  match remembered cfg x victims with
  | some last => return (some last, victims)
  | none =>
    let choice ← randomVictim cfg.numWorkers rand victims req.ID
    return (choice, victims)

/-- The second half: without a victim the request goes back to its sender. -/
def returnToSender (ID : ℕ) (req : StealRequest) (victims : BitVec 32) : Option ℕ → Checked ℕ
  | some victim => return victim
  | none => do
    check (victims = 0#32) .nextVictimEmpty
    check (req.ID ≠ ID ∨ ID = 0) .nextVictimReturn
    return req.ID

/-- `next_victim`: whom to send the request to, and the request with its set of
victims updated. -/
def nextVictim (cfg : Config) (rand : List ℕ) (ID : ℕ) (x : Worker) (req : StealRequest) :
    Checked (ℕ × StealRequest) := do
  let (choice, victims) ← pickVictim cfg rand ID x req
  let victim ← returnToSender ID req victims choice
  check (victim < cfg.numWorkers) .nextVictimRange
  check (req.tries ≤ cfg.maxStealAttempts) .nextVictimAttempts
  return (victim, { req with victims := victims })

/-- The faults of `next_victim` and what it calls. -/
def VictimFault (which : Fault) : Prop :=
  which ∈ [.randomVictimCount, .randomVictimBits, .randomVictimResult, .nextVictimTry,
    .nextVictimSelf, .nextVictimEmpty, .nextVictimReturn, .nextVictimRange, .nextVictimAttempts]

instance : DecidablePred VictimFault := fun which => inferInstanceAs (Decidable (which ∈ _))

private theorem pickVictim_ensures (cfg : Config) (rand : List ℕ) (ID : ℕ) (x : Worker)
    (req : StealRequest) :
    Ensures VictimFault (pickVictim cfg rand ID x req) fun _ => True := by
  simp only [pickVictim, ensures_bind, ensures_ite, ensures_check, ensures_pure]
  refine ⟨fun _ => trivial, fun _ => ⟨fun _ => ⟨fun _ => ?_, ?_⟩, ?_⟩⟩
  · split
    · trivial
    · simp only [randomVictim, ensures_bind, ensures_ite, ensures_check, ensures_pure]
      simp [VictimFault]
  · simp [VictimFault]
  · simp [VictimFault]

/-- The victim is a worker, and the request is the same one with fewer victims
left. -/
theorem nextVictim_ensures (cfg : Config) (rand : List ℕ) (ID : ℕ) (x : Worker)
    (req : StealRequest) :
    Ensures VictimFault (nextVictim cfg rand ID x req) fun out =>
      out.1 < cfg.numWorkers ∧ ∃ victims, out.2 = { req with victims := victims } := by
  simp only [nextVictim, ensures_bind]
  refine (pickVictim_ensures cfg rand ID x req).mono ?_
  rintro ⟨choice, victims⟩ -
  have settled : Ensures VictimFault (returnToSender ID req victims choice) fun _ => True := by
    cases choice with
    | some victim => trivial
    | none =>
      simp only [returnToSender, ensures_bind, ensures_check, ensures_pure]
      simp [VictimFault]
  refine settled.mono fun victim _ => ?_
  simp only [ensures_check, ensures_pure]
  refine ⟨fun inside => ⟨fun _ => ⟨inside, victims, rfl⟩, ?_⟩, ?_⟩
  · simp [VictimFault]
  · simp [VictimFault]

end Tasking.Runtime
