import Tasking.VictimChoice

/-! How many workers there are: `tasking_init` takes the number from the environment
or from the system.  The tables of the runtime have a fixed size, and a set of victims
has 32 bits; nothing after `tasking_init` looks at the number again. -/
namespace Tasking.Startup
open Tasking.Runtime

/-- `MAXWORKERS`. -/
def maxWorkers : ℕ := 32

/-- The value an `int` holds after `x` was assigned to it. -/
def int (x : ℤ) : ℤ := x.bmod (2 ^ 32)

/-- C's `isspace`. -/
def isSpace (c : Char) : Bool := c == ' ' || (decide ('\t' ≤ c) && decide (c ≤ '\r'))

/-- The number at the start of a string. -/
def number (s : List Char) : ℕ :=
  (s.takeWhile Char.isDigit).foldl (fun value c => 10 * value + (c.toNat - '0'.toNat)) 0

/-- `atoi`, that is `(int)strtol(s, NULL, 10)`; `strtol` returns the nearest `long`
if a number does not fit. -/
def atoi (s : List Char) : ℤ :=
  let value : ℤ :=
    match s.dropWhile isSpace with
    | '-' :: digits => -number digits
    | '+' :: digits => number digits
    | digits => number digits
  int (max (-2 ^ 63) (min value (2 ^ 63 - 1)))

structure Environment where
  /-- `getenv("NUM_THREADS")`. -/
  numThreads : Option (List Char)
  /-- `sysconf(_SC_NPROCESSORS_ONLN)`. -/
  processors : ℤ
  /-- `cpu_count()`. -/
  cpus : ℕ

/-- What `tasking_init` sets up: the number of workers, their IDs, and the CPU each of
them is bound to. -/
structure Started where
  numWorkers : ℤ
  IDs : List ℕ
  affinity : List ℕ
  deriving DecidableEq, Repr

/-- `tasking_init` prints something, and starts the workers unless it exits. -/
structure Outcome where
  printed : List String
  started : Option Started
  deriving DecidableEq, Repr

/-- The part of `tasking_init` after `num_workers` is known. -/
def startWorkers (env : Environment) (numWorkers : ℤ) : Started where
  numWorkers := numWorkers
  IDs := List.range numWorkers.toNat
  affinity := (List.range numWorkers.toNat).map (· % env.cpus)

def taskingInit (env : Environment) : Outcome :=
  let cpus := "Number of CPUs: " ++ toString env.cpus ++ "\n"
  match env.numThreads with
  | some envval =>
    let numWorkers := atoi envval
    if numWorkers ≤ 0 then ⟨["NUM_THREADS must be > 0\n"], none⟩
    else if (maxWorkers : ℤ) < numWorkers then
      ⟨["NUM_THREADS is truncated to " ++ toString maxWorkers ++ "\n", cpus],
        some (startWorkers env maxWorkers)⟩
    else ⟨[cpus], some (startWorkers env numWorkers)⟩
  | none => ⟨[cpus], some (startWorkers env (int env.processors))⟩

/-- The tables indexed by worker IDs. -/
inductive Table where
  | chanRequests | chanTasks | backoff
  deriving DecidableEq, Repr

def Table.length : Table → ℕ
  | .chanRequests | .chanTasks | .backoff => maxWorkers

/-- `BIT(n)` has a value: C leaves a shift by the width of `unsigned int` or more
undefined. -/
def BitDefined (n : ℕ) : Prop := n < 32

instance (n : ℕ) : Decidable (BitDefined n) := inferInstanceAs (Decidable (n < 32))

/-- What the runtime takes for granted about the number of workers. -/
structure Started.Fits (s : Started) : Prop where
  positive : 1 ≤ s.numWorkers
  bounded : s.numWorkers ≤ maxWorkers
  ids : ∀ i : ℕ, i ∈ s.IDs ↔ (i : ℤ) < s.numWorkers
  tables : ∀ i ∈ s.IDs, ∀ table : Table, i < table.length
  victims : ∀ i, (initVictims s.numWorkers.toNat).getLsbD i = true ↔ i ∈ s.IDs
  shifts : ∀ i ∈ s.IDs, BitDefined i
  bits : ∀ i ∈ s.IDs, ∀ j ∈ s.IDs, bit i = bit j → i = j

/-! ## The number fits -/

section Fits

variable {env : Environment} {numWorkers : ℤ}

theorem mem_IDs {i : ℕ} : i ∈ (startWorkers env numWorkers).IDs ↔ (i : ℤ) < numWorkers := by
  rw [startWorkers, List.mem_range]
  omega

/-- The bits of different workers are different, as long as there are 32 of them. -/
theorem bit_injective {i j : ℕ} (small : i < 32) (same : bit i = bit j) : i = j := by
  have known : (bit j).getLsbD i = true := by
    rw [← same, bit, BitSet.getLsbD_one_shiftLeft]
    simp [small]
  rw [bit, BitSet.getLsbD_one_shiftLeft] at known
  simp at known
  omega

theorem startWorkers_fits (positive : 1 ≤ numWorkers) (bounded : numWorkers ≤ maxWorkers) :
    (startWorkers env numWorkers).Fits := by
  have few : numWorkers.toNat ≤ 32 := by
    rw [maxWorkers] at bounded
    omega
  have small {i : ℕ} (member : i ∈ (startWorkers env numWorkers).IDs) : i < 32 := by
    rw [mem_IDs] at member
    omega
  refine ⟨positive, bounded, fun i => mem_IDs, fun i member table => ?_, fun i => ?_,
    fun i member => small member, fun i member j _ same => bit_injective (small member) same⟩
  · cases table with
    | chanRequests | chanTasks | backoff => exact small member
  · rw [mem_IDs]
    change (initVictims numWorkers.toNat).getLsbD i = true ↔ _
    rw [← potentialVictim_eq, potentialVictim_initVictims few, decide_eq_true_eq]
    omega

theorem numWorkers_of_unset {started : Started} (unset : env.numThreads = none)
    (starts : (taskingInit env).started = some started) :
    started = startWorkers env (int env.processors) := by
  simp only [taskingInit, unset] at starts
  exact (Option.some.inj starts).symm

/-- The bound on `NUM_THREADS` is the one the tables need: what is larger is cut down, and what
is not positive ends the program. -/
theorem fits_of_set {started : Started} (set : env.numThreads ≠ none)
    (starts : (taskingInit env).started = some started) : started.Fits := by
  unfold taskingInit at starts
  split at starts
  · dsimp only at starts
    split at starts
    · cases starts
    · split at starts
      · cases starts
        exact startWorkers_fits (by decide) le_rfl
      · cases starts
        exact startWorkers_fits (by omega) (by omega)
  · next unset => exact absurd unset set

/-- Whenever `tasking_init` starts the workers, their number fits the tables and the
sets of victims if and only if it was given by `NUM_THREADS`, or the number of
processors, as an `int`, is one that there is room for: only the first is checked. -/
theorem worker_count_fits_iff (env : Environment) {started : Started}
    (starts : (taskingInit env).started = some started) :
    started.Fits ↔ (env.numThreads = none →
      1 ≤ int env.processors ∧ int env.processors ≤ maxWorkers) := by
  constructor
  · intro fits unset
    rw [numWorkers_of_unset unset starts] at fits
    exact ⟨fits.positive, fits.bounded⟩
  · intro few
    by_cases unset : env.numThreads = none
    · rw [numWorkers_of_unset unset starts]
      exact startWorkers_fits (few unset).1 (few unset).2
    · exact fits_of_set unset starts

/-- `NUM_THREADS` asks for too many workers, and is cut down. -/
theorem worker_count_fits_truncated :
    (taskingInit ⟨some " +99 threads".toList, 8, 8⟩).started =
      some ⟨32, List.range 32, (List.range 32).map (· % 8)⟩ ∧
    (⟨32, List.range 32, (List.range 32).map (· % 8)⟩ : Started).Fits :=
  have starts : (taskingInit ⟨some " +99 threads".toList, 8, 8⟩).started =
    some ⟨32, List.range 32, (List.range 32).map (· % 8)⟩ := by decide +kernel
  ⟨starts, (worker_count_fits_iff ⟨some " +99 threads".toList, 8, 8⟩ starts).mpr
    (by intro unset; cases unset)⟩

/-- On a machine with 33 processors, and without `NUM_THREADS`, the last worker has no
place in the tables, and its bit in a set of victims is not defined. -/
theorem thirty_three_processors : ∃ started,
    (taskingInit ⟨none, 33, 33⟩).started = some started ∧ started.numWorkers = 33 ∧
      32 ∈ started.IDs ∧ (∀ table : Table, ¬ 32 < table.length) ∧ ¬ BitDefined 32 ∧
      ¬ started.Fits := by
  refine ⟨startWorkers ⟨none, 33, 33⟩ 33, by decide, rfl, by decide, ?_, by decide, ?_⟩
  · intro table
    cases table <;> decide
  · intro fits
    exact absurd fits.bounded (by decide)

end Fits

end Tasking.Startup
