import Tasking.VictimChoice

/-!
`random_victim` with its loops, its array and its indices as the code has them.
`count_one_bits` clears the lowest bit until none is left and gives the length of
the array `potential_victims`; the loop that fills the array shifts the set to the
right, tests its lowest bit, and writes where `j` stands.  Nothing but the equality
of the two counts keeps the writes inside the array and every element of it set.

Both loops are described by the elements of the set in increasing order,
`Nat.bitIndices`: one counts them (`countOneBits_counts`) and the other stores them
(`fill_stores`).  The choice that follows is the one of the runtime model
(`randomVictim_eq`, `runtime_randomVictim_eq`).
-/
namespace Tasking.RandomVictim
open Fallible BitSet
open Tasking.Runtime (potentialVictim)

/-- The assertions of `random_victim` in their order, and what the language leaves
undefined: a shift by the width or more, an access outside the array and a read of an
element that was not set.  `endless` is a loop that was given too few rounds. -/
inductive VictimFault where
  | count | filled | bits | result | shift | overrun | unset | endless
  deriving DecidableEq, Repr

abbrev Checked (α : Type) := Fallible.Checked VictimFault α

/-! ## The code -/

/-- `POTENTIAL_VICTIM(victims, n)`, with the shift in `BIT(n)`. -/
def testVictim (victims : BitVec 32) (n : ℤ) : Checked Bool := do
  check (0 ≤ n ∧ n < 32) .shift
  return potentialVictim victims n.toNat

/-- `ZERO_RIGHTMOST_ONE_BIT`. -/
def zeroRightmostOneBit (n : BitVec 32) : BitVec 32 := n &&& (n - 1#32)

/-- The loop of `count_one_bits`. -/
def countOneBits : (rounds : ℕ) → (i count : BitVec 32) → Checked (BitVec 32)
  | 0, _, _ => .error (.fault .endless)
  | rounds + 1, i, count =>
    if i = 0#32 then return count
    else countOneBits rounds (zeroRightmostOneBit i) (count + 1#32)

/-- The loop that fills `potential_victims`; `none` is an element not yet set. -/
def fill : (rounds : ℕ) → (i j n : BitVec 32) → List (Option ℤ) →
    Checked (BitVec 32 × List (Option ℤ))
  | 0, _, _, _, _ => .error (.fault .endless)
  | rounds + 1, i, j, n, potentialVictims =>
    if n = 0#32 then return (j, potentialVictims)
    else if potentialVictim n 0 then do
      check (j.toNat < potentialVictims.length) .overrun
      fill rounds (i + 1#32) (j + 1#32) (n >>> 1) (potentialVictims.set j.toNat (some i.toInt))
    else fill rounds (i + 1#32) j (n >>> 1) potentialVictims

/-- `potential_victims[k]`. -/
def readVictim (potentialVictims : List (Option ℤ)) (k : ℕ) : Checked ℤ :=
  match potentialVictims[k]? with
  | none => .error (.fault .overrun)
  | some none => .error (.fault .unset)
  | some (some victim) => .ok victim

/-- The loop that guesses, from round `i` on; `rand i` is what the `i`-th call of
`rand_r` returns. -/
def guesses (numWorkers : ℕ) (rand : ℕ → ℕ) (victims : BitVec 32) (ID : ℕ) :
    (rounds i : ℕ) → Checked (Option ℕ)
  | 0, _ => return none
  | rounds + 1, i => do
    let victim := rand i % numWorkers
    let potential ← testVictim victims victim
    if potential && victim != ID then return some victim
    else guesses numWorkers rand victims ID rounds (i + 1)

/-- `random_victim`, with a bound on the rounds of the loops over `victims`. -/
def randomVictim (rounds numWorkers : ℕ) (rand : ℕ → ℕ) (victims : BitVec 32) (ID : ℕ) :
    Checked ℤ := do
  if victims = 0#32 then return -1
  match ← guesses numWorkers rand victims ID 3 0 with
  | some victim => return victim
  | none =>
    let numVictims ← countOneBits rounds victims 0#32
    check (0 < numVictims.toNat ∧ numVictims.toNat < numWorkers) .count
    let (j, potentialVictims) ← fill rounds 0#32 0#32 victims
      (List.replicate numVictims.toNat none)
    check (j = numVictims) .filled
    let victim ← readVictim potentialVictims (rand 3 % numVictims.toNat)
    let potential ← testVictim victims victim
    check potential .bits
    check ((0 ≤ victim ∧ victim < numWorkers ∧ victim ≠ ID) ∨ victim = -1) .result
    return victim

/-! ## The two loops -/

section Loops

variable {rounds : ℕ} {i j n count : BitVec 32}

/-- `count_one_bits` counts the elements of the set. -/
theorem countOneBits_counts (enough : i.toNat.bitIndices.length < rounds) :
    countOneBits rounds i count = .ok (count + BitVec.ofNat 32 i.toNat.bitIndices.length) := by
  induction rounds generalizing i count with
  | zero => omega
  | succ rounds ih =>
    rw [countOneBits]
    split
    · next zero => simp [zero, pure, Except.pure]
    · next some_ =>
      have one : (zeroRightmostOneBit i).toNat.bitIndices.length + 1 = i.toNat.bitIndices.length :=
        length_bitIndices_and_sub_one some_
      rw [ih (by omega), ← one, Nat.add_comm _ 1, BitVec.ofNat_add, BitVec.add_assoc]

/-- The loop stores the elements of the set in increasing order, one after the other:
some are `stored` already, and there is room for exactly the others. -/
theorem fill_stores {bits : ℕ} {stored : List (Option ℤ)} {positions : List ℕ}
    (small : n.toNat < 2 ^ bits) (enough : bits < rounds) (shifts : i.toNat + bits ≤ 32)
    (here : j.toNat = stored.length) (short : stored.length + positions.length ≤ 32)
    (elements : n.toNat.bitIndices.map (· + i.toNat) = positions) :
    fill rounds i j n (stored ++ List.replicate positions.length none) =
      .ok (j + BitVec.ofNat 32 positions.length,
        stored ++ positions.map fun (position : ℕ) => some (position : ℤ)) := by
  induction bits generalizing rounds i j n stored positions with
  | zero =>
    have zero : n = 0#32 := BitVec.eq_of_toNat_eq (by simpa using small)
    obtain ⟨rounds, rfl⟩ : ∃ r, rounds = r + 1 := ⟨rounds - 1, by omega⟩
    obtain rfl : positions = [] := by simpa [zero] using elements.symm
    simp [fill, zero, pure, Except.pure]
  | succ bits ih =>
    obtain ⟨rounds, rfl⟩ : ∃ r, rounds = r + 1 := ⟨rounds - 1, by omega⟩
    have half : (n >>> 1).toNat < 2 ^ bits := by
      rw [BitVec.toNat_ushiftRight, Nat.shiftRight_one]
      omega
    have next : (i + 1#32).toNat = i.toNat + 1 := by
      rw [BitVec.toNat_add, BitVec.toNat_ofNat]
      omega
    rw [fill]
    split
    · next zero =>
      obtain rfl : positions = [] := by simpa [zero] using elements.symm
      simp [pure, Except.pure]
    · rw [bitIndices_shift, ← Runtime.potentialVictim_eq, ← next] at elements
      split at elements
      · next first =>
        -- `i` is stored, and the others follow
        subst elements
        rw [List.length_cons] at short ⊢
        have along : (j + 1#32).toNat = (stored ++ [some (i.toNat : ℤ)]).length := by
          rw [BitVec.toNat_add, BitVec.toNat_ofNat, List.length_append, List.length_singleton]
          omega
        have exact : i.toInt = i.toNat := BitVec.toInt_eq_toNat_of_lt (by omega)
        have room : (stored ++ [some (i.toNat : ℤ)]).length +
            ((n >>> 1).toNat.bitIndices.map (· + (i + 1#32).toNat)).length ≤ 32 := by
          rw [List.length_append, List.length_singleton]
          omega
        have others := ih half (Nat.lt_of_succ_lt_succ enough) (by omega) along room rfl
        have inside : j.toNat < (stored ++ List.replicate
            (((n >>> 1).toNat.bitIndices.map (· + (i + 1#32).toNat)).length + 1) none).length := by
          rw [List.length_append, List.length_replicate]
          omega
        rw [if_pos first, check, if_pos inside, ok_bind, here,
          List.set_append_right _ _ (Nat.le_refl _), Nat.sub_self, List.replicate_succ,
          List.set_cons_zero, exact]
        rw [List.append_assoc, List.append_assoc, BitVec.add_assoc, ← BitVec.ofNat_add] at others
        rw [Nat.add_comm _ 1]
        exact others
      · next first =>
        rw [if_neg first]
        exact ih half (Nat.lt_of_succ_lt_succ enough) (by omega) here short elements

theorem length_bitIndices_le_width : n.toNat.bitIndices.length ≤ 32 :=
  length_bitIndices_le n.isLt

theorem toNat_count :
    (BitVec.ofNat 32 n.toNat.bitIndices.length).toNat = n.toNat.bitIndices.length := by
  have few : n.toNat.bitIndices.length ≤ 32 := length_bitIndices_le_width
  rw [BitVec.toNat_ofNat]
  omega

theorem countOneBits_eq (enough : 33 ≤ rounds) :
    countOneBits rounds n 0#32 = .ok (BitVec.ofNat 32 n.toNat.bitIndices.length) := by
  have few : n.toNat.bitIndices.length ≤ 32 := length_bitIndices_le_width
  rw [countOneBits_counts (by omega), BitVec.zero_add]

/-- An array as long as `count_one_bits` says is filled from its first element to its last. -/
theorem fill_eq (enough : 33 ≤ rounds) :
    fill rounds 0#32 0#32 n (List.replicate n.toNat.bitIndices.length none) =
      .ok (BitVec.ofNat 32 n.toNat.bitIndices.length,
        n.toNat.bitIndices.map fun (position : ℕ) => some (position : ℤ)) := by
  have few : n.toNat.bitIndices.length ≤ 32 := length_bitIndices_le_width
  have stores := @fill_stores rounds 0#32 0#32 n 32 [] n.toNat.bitIndices n.isLt (by omega)
    (by simp) (by simp) (by simpa using few) (by simp)
  rw [BitVec.zero_add] at stores
  exact stores

end Loops

/-! ## The choice -/

section Choice

variable {rounds numWorkers ID : ℕ} {rand : ℕ → ℕ} {victims : BitVec 32}

/-- What `random_victim` is called with: a set of workers to which `ID` does not belong. -/
structure Eligible (numWorkers : ℕ) (victims : BitVec 32) (ID : ℕ) : Prop where
  few : numWorkers ≤ 32
  below : ∀ i, potentialVictim victims i = true → i < numWorkers
  worker : ID < numWorkers
  self : potentialVictim victims ID = false

theorem eligible_of_lt (few : numWorkers ≤ 32) (small : victims.toNat < 2 ^ numWorkers)
    (worker : ID < numWorkers) (self : potentialVictim victims ID = false) :
    Eligible numWorkers victims ID where
  few := few
  below i member := by
    rw [← Runtime.mem_listVictims] at member
    have power := Nat.two_pow_le_of_mem_bitIndices member
    exact (Nat.pow_lt_pow_iff_right (by decide)).mp (power.trans_lt small)
  worker := worker
  self := self

/-- The victim that is chosen: the first guess that is an element of the set, or an
element of the set at a random place. -/
def chosen (numWorkers : ℕ) (rand : ℕ → ℕ) (victims : BitVec 32) (ID : ℕ) : Option ℕ :=
  if victims = 0#32 then none
  else
    (((List.range' 0 3).map (rand · % numWorkers)).find?
        (fun victim => potentialVictim victims victim && victim != ID)).or
      victims.toNat.bitIndices[rand 3 % victims.toNat.bitIndices.length]?

theorem testVictim_eq {n : ℕ} (narrow : n < 32) :
    testVictim victims n = .ok (potentialVictim victims n) := by
  have inside : (0 : ℤ) ≤ n ∧ (n : ℤ) < 32 := by omega
  rw [testVictim, check, if_pos inside, ok_bind, Int.toNat_natCast]
  rfl

theorem guesses_eq (few : numWorkers ≤ 32) (positive : 0 < numWorkers) {i : ℕ} :
    guesses numWorkers rand victims ID rounds i =
      .ok (((List.range' i rounds).map (rand · % numWorkers)).find?
        fun victim => potentialVictim victims victim && victim != ID) := by
  induction rounds generalizing i with
  | zero => rfl
  | succ rounds ih =>
    have narrow : rand i % numWorkers < 32 := (Nat.mod_lt _ positive).trans_le few
    rw [guesses, testVictim_eq narrow, ok_bind, ih, List.range'_succ, List.map_cons,
      List.find?_cons]
    cases potentialVictim victims (rand i % numWorkers) && rand i % numWorkers != ID <;> rfl

theorem length_bitIndices_lt (eligible : Eligible numWorkers victims ID) :
    victims.toNat.bitIndices.length < numWorkers := by
  rw [← Runtime.countOneBits_all]
  exact Runtime.countOneBits_lt eligible.below eligible.worker eligible.self

theorem length_bitIndices_pos (some_ : victims ≠ 0#32) :
    0 < victims.toNat.bitIndices.length := by
  rw [← Runtime.countOneBits_all]
  exact Runtime.countOneBits_pos some_

theorem exists_drawn (some_ : victims ≠ 0#32) (value : ℕ) :
    ∃ victim, victims.toNat.bitIndices[value % victims.toNat.bitIndices.length]? = some victim ∧
      potentialVictim victims victim = true := by
  have inside := Nat.mod_lt value (length_bitIndices_pos some_)
  refine ⟨_, List.getElem?_eq_getElem inside, ?_⟩
  rw [← Runtime.mem_listVictims]
  exact List.getElem_mem inside

theorem Eligible.differs (eligible : Eligible numWorkers victims ID) {victim : ℕ}
    (member : potentialVictim victims victim = true) : victim ≠ ID := by
  rintro rfl
  rw [eligible.self] at member
  cases member

/-- What is chosen is an element of the set, and there is a choice unless it is empty. -/
theorem chosen_mem (some_ : victims ≠ 0#32) :
    ∃ victim, chosen numWorkers rand victims ID = some victim ∧
      potentialVictim victims victim = true := by
  rw [chosen, if_neg some_]
  cases found : ((List.range' 0 3).map (rand · % numWorkers)).find?
      (fun victim => potentialVictim victims victim && victim != ID) with
  | some victim =>
    have fits := List.find?_some found
    exact ⟨victim, rfl, (Bool.and_eq_true_iff.mp fits).1⟩
  | none => exact exists_drawn some_ (rand 3)

/-- No assertion of `random_victim` fails, its array is filled exactly, and it
returns the choice. -/
theorem randomVictim_eq (eligible : Eligible numWorkers victims ID) (enough : 33 ≤ rounds) :
    randomVictim rounds numWorkers rand victims ID =
      .ok ((chosen numWorkers rand victims ID).elim (-1) fun victim => (victim : ℤ)) := by
  have positive : 0 < numWorkers := Nat.zero_lt_of_lt eligible.worker
  rw [randomVictim, chosen]
  split
  · rfl
  · next some_ =>
    rw [guesses_eq eligible.few positive, ok_bind]
    cases ((List.range' 0 3).map (rand · % numWorkers)).find?
        (fun victim => potentialVictim victims victim && victim != ID) with
    | some victim => rfl
    | none =>
      have least := length_bitIndices_pos some_
      have most := length_bitIndices_lt eligible
      have few := eligible.few
      obtain ⟨victim, drawn, member⟩ := exists_drawn some_ (rand 3)
      have below := eligible.below victim member
      have differs := eligible.differs member
      have read : readVictim (victims.toNat.bitIndices.map fun (position : ℕ) =>
            some (position : ℤ)) (rand 3 % victims.toNat.bitIndices.length) = .ok (victim : ℤ) := by
        rw [readVictim, List.getElem?_map, drawn]
        rfl
      have valid : ((0 : ℤ) ≤ victim ∧ (victim : ℤ) < numWorkers ∧ (victim : ℤ) ≠ ID) ∨
          (victim : ℤ) = -1 := by omega
      rw [Option.none_or, drawn]
      simp only [countOneBits_eq enough, ok_bind, toNat_count, fill_eq enough, check, least, most,
        and_self, if_true, read, testVictim_eq (below.trans_le few), member, valid]
      rfl

/-- The runtime model chooses the same victim, from a list of the set instead of an array that
is filled bit by bit. -/
theorem runtime_randomVictim_eq (eligible : Eligible numWorkers victims ID) (values : List ℕ) :
    Runtime.randomVictim numWorkers values victims ID =
      .ok (chosen numWorkers (values.getD · 0) victims ID) := by
  rw [Runtime.randomVictim, chosen]
  split
  · rfl
  · next some_ =>
    have least := length_bitIndices_pos some_
    have most := length_bitIndices_lt eligible
    obtain ⟨victim, drawn, member⟩ := exists_drawn some_ (values.getD 3 0)
    have below := eligible.below victim member
    have differs := eligible.differs member
    have place : victims.toNat.bitIndices.getD
        (values.getD 3 0 % victims.toNat.bitIndices.length) 0 = victim := by
      rw [List.getD_eq_getElem?_getD, drawn]
      rfl
    rw [drawn]
    simp only [List.range', List.map_cons, List.map_nil, List.find?_cons, List.find?_nil]
    cases potentialVictim victims (values.getD 0 0 % numWorkers) &&
      values.getD 0 0 % numWorkers != ID
    · cases potentialVictim victims (values.getD 1 0 % numWorkers) &&
        values.getD 1 0 % numWorkers != ID
      · cases potentialVictim victims (values.getD 2 0 % numWorkers) &&
          values.getD 2 0 % numWorkers != ID
        · simp only [Runtime.countOneBits_all, Runtime.listVictims_all, check, place, least, most,
            member, below, differs, and_self, ne_eq, not_false_eq_true, if_true, ok_bind]
          rfl
        · rfl
      · rfl
    · rfl

/-- `random_victim` returns an element of the set, and -1 only if there is none; on
the way `count_one_bits` counts the set positions, and the array of that length is
filled with them in increasing order. -/
theorem random_victim_sound (numWorkers : ℕ) (victims : BitVec 32) (ID : ℕ) (rand : ℕ → ℕ)
    (rounds : ℕ) (eligible : Eligible numWorkers victims ID) (enough : 33 ≤ rounds) :
    (Returns (randomVictim rounds numWorkers rand victims ID) fun victim =>
      (victim = -1 ↔ victims = 0#32) ∧
        (victims ≠ 0#32 → ∃ v : ℕ, victim = v ∧ potentialVictim victims v = true ∧
          v < numWorkers ∧ v ≠ ID)) ∧
      ∃ positions : List ℕ, positions.Pairwise (· < ·) ∧
        (∀ i, i ∈ positions ↔ potentialVictim victims i = true) ∧
        (Returns (countOneBits rounds victims 0#32) fun count =>
          count.toNat = positions.length) ∧
        (Returns (fill rounds 0#32 0#32 victims (List.replicate positions.length none))
          fun filled => filled.1.toNat = positions.length ∧
            filled.2 = positions.map fun (position : ℕ) => some (position : ℤ)) := by
  refine ⟨?_, victims.toNat.bitIndices, Nat.bitIndices_sorted.pairwise,
    fun i => Runtime.mem_listVictims, ?_, ?_⟩
  · rw [randomVictim_eq eligible enough]
    by_cases empty : victims = 0#32
    · subst empty
      simp [chosen]
    · obtain ⟨v, choice, member⟩ := @chosen_mem numWorkers ID rand victims empty
      have negative : (v : ℤ) ≠ -1 := by omega
      rw [choice]
      exact ⟨iff_of_false negative empty,
        fun _ => ⟨v, rfl, member, eligible.below v member, eligible.differs member⟩⟩
  · rw [countOneBits_eq enough]
    exact toNat_count
  · rw [fill_eq enough]
    exact ⟨toNat_count, rfl⟩

/-- Workers 1, 3 and 4 of five are asked for by worker 0, and the guesses miss. -/
theorem random_victim_sound_three :
    Eligible 5 0b11010#32 0 ∧ randomVictim 33 5 (fun _ => 2) 0b11010#32 0 = .ok 4 ∧
      Returns (randomVictim 33 5 (fun _ => 2) 0b11010#32 0) fun victim =>
        ∃ v : ℕ, victim = v ∧ potentialVictim 0b11010#32 v = true ∧ v < 5 ∧ v ≠ 0 := by
  have eligible : Eligible 5 0b11010#32 0 :=
    eligible_of_lt (by decide) (by decide) (by decide) (by decide)
  have sound := random_victim_sound 5 0b11010#32 0 (fun _ => 2) 33 eligible (by decide)
  exact ⟨eligible, by decide, sound.1.mono fun _ held => held.2 (by decide)⟩

end Choice

end Tasking.RandomVictim
