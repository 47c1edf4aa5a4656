import Mathlib.Algebra.BigOperators.Fin
import Mathlib.Data.Fintype.BigOperators
import Mathlib.Data.Nat.Fib.Basic
import Mathlib.Logic.Equiv.Fin.Basic
import Tasking.ProgramMeaning

/-!
The recursive test programs: `test/fib.c`, `test/fib-like.c` and `test/nqueens.c`.

Their functions call themselves with `FUTURE` and add up what `AWAIT` returns.  On any
number of workers, and however tasks are stolen, they print Fibonacci numbers, the size of
their own call tree, and the number of ways to place queens on a board.
-/
namespace Tasking.TestPrograms
open Tasking.Runtime ForkJoin Loops

/-! ## Numbers in memory -/

/-- The bytes of a number, the lowest first. -/
def toBytes : ℕ → ℕ → Value
  | 0, _ => []
  | size + 1, x => UInt8.ofNat x :: toBytes size (x / 256)

/-- An integer of `size` bytes. -/
def word (size : ℕ) (x : ℤ) : Value := toBytes size (x % 256 ^ size).toNat

/-- The bytes read as an unsigned number. -/
def number (v : Value) : ℕ := v.foldr (fun b n => b.toNat + 256 * n) 0

/-- The bytes read as an `int`. -/
def int (v : Value) : ℤ := (number v : ℤ).bmod (2 ^ 32)

theorem number_toBytes (size x : ℕ) : number (toBytes size x) = x % 256 ^ size := by
  induction size generalizing x with
  | zero => simp [toBytes, number, Nat.mod_one]
  | succ size ih =>
    have unfolded : number (toBytes (size + 1) x) =
        (UInt8.ofNat x).toNat + 256 * number (toBytes size (x / 256)) := rfl
    rw [unfolded, ih, pow_succ', Nat.mod_mul, UInt8.toNat_ofNat']

theorem number_word (size : ℕ) (x : ℤ) : (number (word size x) : ℤ) = x % 256 ^ size := by
  have positive : (0 : ℤ) < 256 ^ size := by positivity
  have low := Int.emod_nonneg x positive.ne'
  have high := Int.emod_lt_of_pos x positive
  rw [word, number_toBytes, Nat.mod_eq_of_lt (by zify; rwa [Int.toNat_of_nonneg low]),
    Int.toNat_of_nonneg low]

theorem word_congr {size : ℕ} {x y : ℤ} (same : x % 256 ^ size = y % 256 ^ size) :
    word size x = word size y := by
  rw [word, word, same]

theorem int_word (x : ℤ) : int (word 4 x) = x.bmod (2 ^ 32) := by
  unfold int
  rw [number_word]
  exact Int.emod_bmod x (2 ^ 32)

/-- Adding two `int`s and one. -/
theorem word_add_one (x y : ℤ) :
    word 4 (x.bmod (2 ^ 32) + y.bmod (2 ^ 32) + 1) = word 4 (x + y + 1) := by
  refine word_congr ?_
  change (_ : ℤ) % (2 ^ 32 : ℕ) = _ % (2 ^ 32 : ℕ)
  rw [Int.add_emod, Int.add_emod (x.bmod _), Int.bmod_emod, Int.bmod_emod, ← Int.add_emod x,
    ← Int.add_emod]

section Recursion

variable {ε : Type} {cfg : Config} {d : Programmed ε} {v : Value}

/-- The function called by `main` has returned `v`.  The results are checked and printed
at that point, before the barrier of `TASKING_EXIT`; the value is the same behind it. -/
def Returned (d : Programmed ε) (v : Value) : Prop :=
  d.root.program = .join (.ret v) ∨ d.root.program = .ret v

/-- A function without effects, called by `main` before `TASKING_EXIT`. -/
theorem yields_result {p : Program Bounds ε Value} {u : Value} (yields : p.Yields u)
    (reached : (programmed cfg p.closed).Reachable d) (returned : Returned d v) : v = u := by
  obtain ⟨more, ran⟩ := yields []
  exact (reachable_sound ((p.run_closed []).trans ran) (reachable_ok reached).2).value returned

/-! ## Fibonacci numbers -/

/-- `parfib` of `test/fib.c`.  An `int` that is returned as an `unsigned long long` wraps. -/
def parfib (n : ℤ) : Program Bounds ε Value :=
  if n < 2 then .ret (word 8 n)
  else .future (parfib (n - 1)) fun x => (parfib (n - 2)).bind fun y =>
    .await x fun v => .ret (word 8 (number v + number y))
termination_by n.toNat

/-- A call, a task for the call, and a sum. -/
theorem yields_both {first second : Program Bounds ε Value} {u v w : Value}
    (sum : Value → Value → Value) (left : first.Yields u) (right : second.Yields v)
    (total : sum u v = w) :
    (Program.future first fun x => second.bind fun y =>
      .await x fun v => .ret (sum v y)).Yields w := by
  intro env
  obtain ⟨more, called⟩ := right.run_bind (fun y => .await env.length fun v => .ret (sum v y))
    (env ++ [u])
  refine ⟨[u] ++ more, ?_⟩
  rw [left.run_future, called]
  simp [Program.run, total]

theorem parfib_yields (n : ℕ) : (parfib n : Program Bounds ε Value).Yields (word 8 n.fib) := by
  induction n using Nat.strong_induction_on with
  | _ n ih =>
    rw [parfib]
    split
    · next small =>
      obtain rfl | rfl : n = 0 ∨ n = 1 := by omega
      · exact Program.yields_ret _
      · exact Program.yields_ret _
    · next big =>
      have down : (n : ℤ) - 1 = (n - 1 : ℕ) ∧ (n : ℤ) - 2 = (n - 2 : ℕ) := by omega
      rw [down.1, down.2]
      refine yields_both (fun v y => word 8 (number v + number y)) (ih (n - 1) (by omega))
        (ih (n - 2) (by omega)) ?_
      obtain ⟨k, rfl⟩ : ∃ k, n = k + 2 := ⟨n - 2, by omega⟩
      rw [number_word, number_word, Nat.fib_add_two, add_comm (Nat.fib k)]
      exact word_congr (by push_cast; exact (Int.add_emod ..).symm)

/-- `test/fib.c` computes Fibonacci numbers, modulo the size of `unsigned long long`, on any
number of workers and whichever tasks they steal. -/
theorem parfib_computes (n : ℕ) (reached : (programmed cfg (parfib n).closed).Reachable d)
    (returned : Returned d v) : number v = n.fib % 2 ^ 64 := by
  have same : (number v : ℤ) = n.fib % 256 ^ 8 := by
    rw [yields_result (parfib_yields n) reached returned, number_word]
  zify
  exact same

/-- Two workers compute the fourth Fibonacci number. -/
theorem parfib_computes_four : ∃ v,
    (Programmed.after (.makefile 2 two_pos) (parfib (ε := Empty) (4 : ℕ)).closed
      (rounds (.makefile 2 two_pos) 100)).root.program.result = some v ∧ number v = 3 := by
  have ran : (Programmed.after (.makefile 2 two_pos) (parfib (ε := Empty) (4 : ℕ)).closed
      (rounds (.makefile 2 two_pos) 100)).root.program.result = some [3, 0, 0, 0, 0, 0, 0, 0] := by
    decide +kernel
  exact ⟨_, ran, parfib_computes 4 (programmed_reachable _ _ _)
    (.inr (Program.result_eq_some ran))⟩

/-! ## The size of a call tree -/

/-- `fib_like` of `test/fib-like.c`; `compute` takes its time and returns 1. -/
def fibLike (n : ℤ) : Program Bounds ε Value :=
  if n < 2 then .ret (word 4 1)
  else .future (fibLike (n - 1)) fun x => (fibLike (n - 2)).bind fun y =>
    .await x fun v => .ret (word 4 (int v + int y + 1))
termination_by n.toNat

theorem fibLike_yields (n : ℕ) :
    (fibLike n : Program Bounds ε Value).Yields (word 4 (2 * (n + 1).fib - 1)) := by
  induction n using Nat.strong_induction_on with
  | _ n ih =>
    rw [fibLike]
    split
    · next small =>
      obtain rfl | rfl : n = 0 ∨ n = 1 := by omega
      · exact Program.yields_ret _
      · exact Program.yields_ret _
    · next big =>
      have down : (n : ℤ) - 1 = (n - 1 : ℕ) ∧ (n : ℤ) - 2 = (n - 2 : ℕ) := by omega
      rw [down.1, down.2]
      refine yields_both (fun v y => word 4 (int v + int y + 1)) (ih (n - 1) (by omega))
        (ih (n - 2) (by omega)) ?_
      obtain ⟨k, rfl⟩ : ∃ k, n = k + 2 := ⟨n - 2, by omega⟩
      have fib : ((k + 2 + 1).fib : ℤ) = (k + 1).fib + (k + 2).fib := by
        exact_mod_cast Nat.fib_add_two
      rw [int_word, int_word, word_add_one, fib]
      exact congrArg _ (by push_cast; ring)

/-- What `verify_result` expects: how many tasks there are. -/
def ntasks : List ℤ :=
  [0, 0, 2, 4, 8,
    14, 24, 40, 66, 108,
    176, 286, 464, 752, 1218,
    1972, 3192, 5166, 8360, 13528,
    21890, 35420, 57312, 92734, 150048,
    242784, 392834, 635620, 1028456, 1664078,
    2692536, 4356616, 7049154, 11405772, 18454928,
    29860702, 48315632, 78176336, 126491970, 204668308,
    331160280, 535828590, 866988872, 1402817464]

/-- `test/fib-like.c` passes its own check, `res == ntasks[n] + 1`, wherever the table of
`verify_result` has an entry. -/
theorem fibLike_verified {n : ℕ} (small : n ≤ 43)
    (reached : (programmed cfg (fibLike n).closed).Reachable d)
    (returned : Returned d v) :
    int v = 2 * (n + 1).fib - 1 ∧ ntasks[n]? = some (int v - 1) := by
  have fits : ∀ n < 44, (2 * ((n + 1).fib : ℤ) - 1).bmod (2 ^ 32) = 2 * (n + 1).fib - 1 ∧
      ntasks[n]? = some (2 * ((n + 1).fib : ℤ) - 1 - 1) := by decide +kernel
  obtain ⟨exact, table⟩ := fits n (by omega)
  rw [yields_result (fibLike_yields n) reached returned, int_word, exact]
  exact ⟨rfl, table⟩

theorem fibLike_verified_three : ∃ v,
    (Programmed.after (.makefile 2 two_pos) (fibLike (ε := Empty) (3 : ℕ)).closed
      (rounds (.makefile 2 two_pos) 100)).root.program.result = some v ∧ int v = 5 := by
  have ran : (Programmed.after (.makefile 2 two_pos) (fibLike (ε := Empty) (3 : ℕ)).closed
      (rounds (.makefile 2 two_pos) 100)).root.program.result = some [5, 0, 0, 0] := by
    decide +kernel
  exact ⟨_, ran, (fibLike_verified (n := 3) (by decide) (programmed_reachable _ _ _)
    (.inr (Program.result_eq_some ran))).1⟩

/-! ## Queens on a board -/

/-- `ok` of `test/nqueens.c`: none of the queens in the first `n` rows conflict. -/
def ok (n : ℕ) (a : List ℤ) : Bool :=
  (List.range n).all fun i => (List.range' (i + 1) (n - (i + 1))).all fun j =>
    let p := a.getD i 0
    let q := a.getD j 0
    !(q == p || q == p - (j - i) || q == p + (j - i))

/-- The second loop of `nqueens`. -/
def collect : List ℕ → ℤ → Program Bounds ε Value
  | [], count => .ret (word 4 count)
  | k :: rest, count => .await k fun v => collect rest ((count + int v).bmod (2 ^ 32))

/-- The first loop: a queen in row `i` of the next column, if she is safe there. -/
def place (child : List ℤ → Program Bounds ε Value) (a : List ℤ) : List ℕ → List ℕ →
    Program Bounds ε Value
  | [], localCounts => collect localCounts 0
  | i :: rest, localCounts =>
    let b := a ++ [(i : ℤ).bmod 256]
    if ok b.length b then .future (child b) fun k => place child a rest (localCounts ++ [k])
    else place child a rest localCounts

/-- `nqueens(n, j, a)`, with `n - j` columns left. -/
def nqueens (n : ℕ) : ℕ → List ℤ → Program Bounds ε Value
  | 0, _ => .ret (word 4 1)
  | left + 1, a => place (nqueens n left) a (List.range n) []

theorem word_bmod (x y : ℤ) : word 4 (x.bmod (2 ^ 32) + y) = word 4 (x + y) := by
  refine word_congr ?_
  change (_ : ℤ) % (2 ^ 32 : ℕ) = _ % (2 ^ 32 : ℕ)
  rw [Int.add_emod, Int.bmod_emod, ← Int.add_emod]

/-- Futures that are worth some numbers. -/
abbrev Hold (env : List Value) : List ℕ → List ℤ → Prop :=
  List.Forall₂ fun k x => env[k]? = some (word 4 x)

theorem collect_run {env : List Value} {ks : List ℕ} {xs : List ℤ} (hold : Hold env ks xs)
    (count : ℤ) : (collect ks count : Program Bounds ε Value).run env =
      some ⟨word 4 (count + xs.sum), env, []⟩ := by
  induction hold generalizing count with
  | nil => simp [collect, Program.run]
  | @cons k x ks xs here _ ih =>
    have sum : word 4 ((count + int (word 4 x)).bmod (2 ^ 32) + xs.sum) =
        word 4 (count + (x :: xs).sum) := by
      rw [word_bmod, int_word, List.sum_cons, add_comm count, add_assoc, word_bmod]
      exact congrArg _ (by ring)
    rw [collect, Program.run, here, Option.bind_some, ih, sum]

/-- What the first loop adds up. -/
def total (c : List ℤ → ℤ) (a : List ℤ) (rows : List ℕ) : ℤ :=
  (rows.map fun i : ℕ =>
    let b := a ++ [(i : ℤ).bmod 256]
    if ok b.length b then c b else 0).sum

theorem place_run {child : List ℤ → Program Bounds ε Value} {c : List ℤ → ℤ}
    (yields : ∀ b, (child b).Yields (word 4 (c b))) (a : List ℤ) (rows : List ℕ) {env : List Value}
    {ks : List ℕ} {xs : List ℤ} (hold : Hold env ks xs) : ∃ more,
      (place child a rows ks).run env =
        some ⟨word 4 (xs.sum + total c a rows), env ++ more, []⟩ := by
  induction rows generalizing env ks xs with
  | nil => exact ⟨[], by simp [place, collect_run hold, total]⟩
  | cons i rows ih =>
    simp only [place, total, List.map_cons, List.sum_cons]
    split
    · next safe =>
      have grown : Hold (env ++ [word 4 (c (a ++ [(i : ℤ).bmod 256]))]) (ks ++ [env.length])
          (xs ++ [c (a ++ [(i : ℤ).bmod 256])]) := by
        refine List.rel_append (hold.imp fun k x here => ?_) (.cons (by simp) .nil)
        obtain ⟨inside, -⟩ := List.getElem?_eq_some_iff.mp here
        rwa [List.getElem?_append_left inside]
      obtain ⟨more, ran⟩ := ih grown
      refine ⟨[word 4 (c (a ++ [(i : ℤ).bmod 256]))] ++ more, ?_⟩
      rw [(yields _).run_future, ran]
      simp [total, add_assoc]
    · simpa [total] using ih hold

/-- The boards with `left` more columns, as `nqueens` counts them. -/
def completions (n : ℕ) : ℕ → List ℤ → ℤ
  | 0, _ => 1
  | left + 1, a => total (completions n left) a (List.range n)

theorem nqueens_yields (n left : ℕ) (a : List ℤ) :
    (nqueens n left a : Program Bounds ε Value).Yields (word 4 (completions n left a)) := by
  induction left generalizing a with
  | zero => exact Program.yields_ret _
  | succ left ih =>
    intro env
    have none : Hold env [] [] := .nil
    obtain ⟨more, ran⟩ := place_run ih a (List.range n) none
    exact ⟨more, by simpa [nqueens, completions] using ran⟩

/-- Two queens in different columns, `apart` from each other. -/
def Safe (p q : ℤ) (apart : ℤ) : Prop := q ≠ p ∧ q ≠ p - apart ∧ q ≠ p + apart

theorem ok_iff (n : ℕ) (a : List ℤ) : ok n a = true ↔
    ∀ i j, i < j → j < n → Safe (a.getD i 0) (a.getD j 0) (j - i) := by
  simp only [ok, List.all_eq_true, List.mem_range, List.mem_range'_1, Bool.not_eq_true',
    Bool.or_eq_false_iff, beq_eq_false_iff_ne, Safe]
  constructor
  · intro all i j above inside
    obtain ⟨⟨one, two⟩, three⟩ := all i (by omega) j ⟨by omega, by omega⟩
    exact ⟨one, two, three⟩
  · intro all i inside j range
    obtain ⟨one, two, three⟩ := all i j (by omega) (by omega)
    exact ⟨⟨one, two⟩, three⟩

/-- Queens do not get safer by adding more. -/
theorem ok_append {a b : List ℤ} (safe : ok (a ++ b).length (a ++ b) = true) :
    ok a.length a = true := by
  rw [ok_iff] at safe ⊢
  intro i j above inside
  have pair := safe i j above (by rw [List.length_append]; omega)
  rwa [List.getD_append _ _ _ _ inside, List.getD_append _ _ _ _ (above.trans inside)] at pair

/-- Boards that agree with `a` in the first columns. -/
def Completes (n left : ℕ) (a : List ℤ) (q : Fin left → Fin n) : Prop :=
  let board := a ++ List.ofFn fun k => ((q k : ℕ) : ℤ)
  ok board.length board = true

instance (n left : ℕ) (a : List ℤ) : DecidablePred (Completes n left a) :=
  fun _ => inferInstanceAs (Decidable (_ = true))

theorem completes_cons {n left : ℕ} {a : List ℤ} (i : Fin n) (q : Fin left → Fin n) :
    Completes n (left + 1) a (Fin.cons i q) ↔ Completes n left (a ++ [((i : ℕ) : ℤ)]) q := by
  simp [Completes, List.ofFn_succ]

theorem card_completes (n left : ℕ) (a : List ℤ) :
    Fintype.card {q // Completes n (left + 1) a q} =
      ∑ i : Fin n, Fintype.card {q // Completes n left (a ++ [((i : ℕ) : ℤ)]) q} := by
  rw [← Fintype.card_sigma]
  refine Fintype.card_congr (((Fin.consEquiv fun _ => Fin n).subtypeEquiv fun b => ?_).symm.trans
    (Equiv.subtypeProdEquivSigmaSubtype fun (i : Fin n) q =>
      Completes n left (a ++ [((i : ℕ) : ℤ)]) q))
  exact (completes_cons b.1 b.2).symm

theorem completions_eq {n : ℕ} (small : n ≤ 128) (left : ℕ) (a : List ℤ)
    (safe : ok a.length a = true) :
    completions n left a = Fintype.card {q // Completes n left a q} := by
  induction left generalizing a with
  | zero =>
    have only : Fintype.card {q // Completes n 0 a q} = 1 := by
      refine Fintype.card_eq_one_iff.mpr
        ⟨⟨Fin.elim0, ?_⟩, fun q => Subtype.ext (Subsingleton.elim _ _)⟩
      simpa [Completes] using safe
    rw [only, completions, Nat.cast_one]
  | succ left ih =>
    have sum (f : ℕ → ℤ) : ((List.range n).map f).sum = ∑ i : Fin n, f i := by
      rw [← Finset.sum_range]
      rfl
    rw [completions, total, sum, card_completes, Nat.cast_sum]
    refine Finset.sum_congr rfl fun i _ => ?_
    have char : ((i : ℕ) : ℤ).bmod 256 = (i : ℕ) := Int.bmod_eq_of_le (by omega) (by omega)
    simp only [char]
    split
    · next fits => exact ih _ fits
    · next conflict =>
      refine (Nat.cast_eq_zero.mpr (Fintype.card_eq_zero_iff.mpr ⟨fun q => conflict ?_⟩)).symm
      exact ok_append q.2

/-- A placement of `n` queens in which none attacks another. -/
def Peaceful {n : ℕ} (q : Fin n → Fin n) : Prop :=
  ∀ i j : Fin n, i < j → Safe (q i : ℕ) (q j : ℕ) ((j : ℕ) - (i : ℕ))

theorem completes_iff {n : ℕ} (q : Fin n → Fin n) : Completes n n [] q ↔ Peaceful q := by
  simp only [Completes, List.nil_append, List.length_ofFn, ok_iff, Peaceful]
  constructor
  · intro all i j above
    simpa [List.getD_eq_getElem?_getD, List.getElem?_ofFn] using all i j above j.isLt
  · intro all i j above inside
    have pair := all ⟨i, above.trans inside⟩ ⟨j, inside⟩ above
    simpa [List.getD_eq_getElem?_getD, List.getElem?_ofFn, inside, above.trans inside] using pair

instance {n : ℕ} : DecidablePred (Peaceful (n := n)) :=
  fun q => decidable_of_iff _ (completes_iff q)

/-- `test/nqueens.c` counts the placements, in an `int`.  A queen's row is kept in a `char`,
which has room for 128 rows. -/
theorem nqueens_counts {n : ℕ} (small : n ≤ 128)
    (reached : (programmed cfg (nqueens n n []).closed).Reachable d)
    (returned : Returned d v) :
    int v = (Fintype.card {q : Fin n → Fin n // Peaceful q} : ℤ).bmod (2 ^ 32) := by
  have same : Fintype.card {q // Completes n n [] q} =
      Fintype.card {q : Fin n → Fin n // Peaceful q} :=
    Fintype.card_congr (Equiv.subtypeEquivRight completes_iff)
  rw [yields_result (nqueens_yields n n []) reached returned, int_word,
    completions_eq small n [] rfl, same]

/-- On a board of side four, two workers find both placements. -/
theorem nqueens_counts_four : ∃ v,
    (Programmed.after (.makefile 2 two_pos) (nqueens (ε := Empty) 4 4 []).closed
      (rounds (.makefile 2 two_pos) 150)).root.program.result = some v ∧ int v = 2 := by
  have ran : (Programmed.after (.makefile 2 two_pos) (nqueens (ε := Empty) 4 4 []).closed
      (rounds (.makefile 2 two_pos) 150)).root.program.result = some [2, 0, 0, 0] := by
    decide +kernel
  have counted := nqueens_counts (by decide) (programmed_reachable _ _ _)
    (.inr (Program.result_eq_some ran))
  have two : Fintype.card {q : Fin 4 → Fin 4 // Peaceful q} = 2 := by decide +kernel
  rw [two] at counted
  exact ⟨_, ran, counted⟩

end Recursion

end Tasking.TestPrograms
