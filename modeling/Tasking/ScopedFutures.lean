import Mathlib.Data.List.Range
import Mathlib.Data.List.Count
import Mathlib.Data.List.Nodup
import Mathlib.Tactic.Common

/-!
`AWAIT_ALL` and the futures created in its block.  The macro is a `for` loop whose
condition is `hd == NULL || (await_future_nodes(hd), 0)`: the body runs as long as the
list of futures is empty, and the futures are awaited once it is not.  A body that is
left by `break` or `return` leaves the loop without coming to the condition.

`exec` runs code as the macros expand; `once` is what `AWAIT_ALL` is for, the body
followed by its awaits, however the block is left.  `exec_once` says that the two agree
if every block that is entered comes to its end with a future created, or is left before
one is, and `Effect` says what the second does.  `exec_trace` is the converse: in any
other run some block is entered twice, or does not await what it created.
-/
namespace Tasking.ScopedFutures
open Function

variable {V : Type}

/-- `struct future_node`: the future and where its result goes. -/
structure Node where
  f : ℕ
  r : ℕ
  deriving DecidableEq, Repr

/-- Ghost: what happens in the block with a given number. -/
inductive Event where
  | entered (block : ℕ)
  | created (block : ℕ) (node : Node)
  | awaited (block : ℕ) (node : Node)
  deriving DecidableEq, Repr

/-- `futures` and `blocks` count what was created and begun so far. -/
structure World (V : Type) where
  memory : ℕ → V
  futures : ℕ
  blocks : ℕ
  log : List Event

/-- How code is left: at its end, which `continue` jumps to as well, by a `break` that
belongs to the block around it, or by `return`. -/
inductive Exit where
  | atEnd | byBreak | byReturn
  deriving DecidableEq, Repr

/-- The code of a block.  Where it continues may depend on the memory, so that `branch`
stands for every conditional and every loop that ends. -/
inductive Code (V : Type) where
  | leave (how : Exit)
  | act (effect : (ℕ → V) → ℕ → V) (rest : Code V)
  | branch (next : (ℕ → V) → Code V)
  /-- `FUTURE(fun, args, addr)`. -/
  | future (addr : (ℕ → V) → ℕ) (rest : Code V)
  | awaitAll (body rest : Code V)

abbrev Code.done : Code V := .leave .atEnd

/-- What code works on: the innermost `hd`, and the rest of the world. -/
abbrev State (V : Type) := List Node × World V

/-! ## The macros -/

/-- `FUTURE_3_CALL`. -/
def createFuture (block addr : ℕ) (s : State V) : State V :=
  let node : Node := ⟨s.2.futures, addr⟩
  (node :: s.1, { s.2 with futures := s.2.futures + 1, log := s.2.log ++ [.created block node] })

/-- `n->await(n)`: the result of the future is stored at the address of the node. -/
def awaitNode (result : ℕ → V) (block : ℕ) (w : World V) (n : Node) : World V :=
  { w with
    memory := update w.memory n.r (result n.f)
    log := w.log ++ [.awaited block n] }

/-- `await_future_nodes`. -/
def awaitFutureNodes (result : ℕ → V) (block : ℕ) (hd : List Node) (w : World V) : World V :=
  hd.foldl (awaitNode result block) w

def World.begin (w : World V) : World V := { w with blocks := w.blocks + 1 }

def World.enter (w : World V) (block : ℕ) : World V := { w with log := w.log ++ [.entered block] }

/-- How the statement around a block is left when its body is: `break` ends the loop, and
`return` the function. -/
def Exit.around : Exit → Exit
  | .atEnd | .byBreak => .atEnd
  | .byReturn => .byReturn

/-- `for (hd = NULL; hd == NULL || (await_future_nodes(hd), 0);) body`. -/
def awaitAllLoop (result : ℕ → V) (block : ℕ) (body : State V → Option (Exit × State V)) :
    (fuel : ℕ) → State V → Option (Exit × World V)
  | 0, _ => none
  | fuel + 1, ([], w) => do
    let (how, s) ← body ([], w.enter block)
    if how = .atEnd then awaitAllLoop result block body fuel s else some (how.around, s.2)
  | _ + 1, (n :: hd, w) => some (.atEnd, awaitFutureNodes result block (n :: hd) w)

/-- The code of block `block`; `none` if the fuel does not suffice. -/
def exec (result : ℕ → V) :
    (fuel : ℕ) → Code V → (block : ℕ) → State V → Option (Exit × State V)
  | 0, _, _, _ => none
  | _ + 1, .leave how, _, s => some (how, s)
  | fuel + 1, .act effect rest, block, (hd, w) =>
    exec result fuel rest block (hd, { w with memory := effect w.memory })
  | fuel + 1, .branch next, block, s => exec result fuel (next s.2.memory) block s
  | fuel + 1, .future addr rest, block, s =>
    exec result fuel rest block (createFuture block (addr s.2.memory) s)
  | fuel + 1, .awaitAll body rest, block, (hd, w) => do
    let inner := w.blocks
    let (how, w) ← awaitAllLoop result inner (exec result fuel body inner) fuel ([], w.begin)
    if how = .byReturn then some (.byReturn, (hd, w)) else exec result fuel rest block (hd, w)

/-! ## What the block is for -/

/-- The same, with the body of every block run once and its futures awaited when the
block is left. -/
def once (result : ℕ → V) : Code V → (block : ℕ) → State V → Exit × State V
  | .leave how, _, s => (how, s)
  | .act effect rest, block, (hd, w) =>
    once result rest block (hd, { w with memory := effect w.memory })
  | .branch next, block, s => once result (next s.2.memory) block s
  | .future addr rest, block, s =>
    once result rest block (createFuture block (addr s.2.memory) s)
  | .awaitAll body rest, block, (hd, w) =>
    let r := once result body w.blocks ([], w.begin.enter w.blocks)
    let w := awaitFutureNodes result w.blocks r.2.1 r.2.2
    if r.1 = .byReturn then (.byReturn, (hd, w)) else once result rest block (hd, w)

/-- Every block that is entered creates a future, unless it is left by `break` or `return`
before it has created one. -/
def Creates (result : ℕ → V) : Code V → (block : ℕ) → State V → Prop
  | .leave _, _, _ => True
  | .act effect rest, block, (hd, w) =>
    Creates result rest block (hd, { w with memory := effect w.memory })
  | .branch next, block, s => Creates result (next s.2.memory) block s
  | .future addr rest, block, s =>
    Creates result rest block (createFuture block (addr s.2.memory) s)
  | .awaitAll body rest, block, (hd, w) =>
    let r := once result body w.blocks ([], w.begin.enter w.blocks)
    Creates result body w.blocks ([], w.begin.enter w.blocks) ∧ (r.1 = .atEnd ↔ r.2.1 ≠ []) ∧
      (r.1 ≠ .byReturn →
        Creates result rest block (hd, awaitFutureNodes result w.blocks r.2.1 r.2.2))

variable {result : ℕ → V}

theorem Exit.around_eq_byReturn {how : Exit} : how.around = .byReturn ↔ how = .byReturn := by
  cases how <;> simp [Exit.around]

/-- One round: it creates a future and comes to its end, or neither. -/
theorem awaitAllLoop_one {body : State V → Option (Exit × State V)} {block : ℕ} {w : World V}
    {how : Exit} {s : State V} (ran : body ([], w.enter block) = some (how, s))
    (created : how = .atEnd ↔ s.1 ≠ []) (fuel : ℕ) :
    awaitAllLoop result block body (fuel + 2) ([], w) =
      some (how.around, awaitFutureNodes result block s.1 s.2) := by
  obtain ⟨hd, w'⟩ := s
  rw [awaitAllLoop, ran]
  change (if how = .atEnd then awaitAllLoop result block body (fuel + 1) (hd, w')
    else some (how.around, w')) = _
  cases hd with
  | nil =>
    have left : how ≠ .atEnd := fun atEnd => created.mp atEnd rfl
    rw [if_neg left]
    rfl
  | cons n hd =>
    have atEnd : how = .atEnd := created.mpr (List.cons_ne_nil _ _)
    rw [if_pos atEnd, atEnd]
    rfl

/-- With a future in every block, the loop of `AWAIT_ALL` makes one round: `hd` is not `NULL`
then, and the condition awaits the futures and is false. -/
theorem exec_once {code : Code V} {block : ℕ} {s : State V}
    (creates : Creates result code block s) :
    ∃ enough, ∀ fuel, exec result (enough + fuel) code block s =
      some (once result code block s) := by
  induction code generalizing block s with
  | leave how => exact ⟨1, fun fuel => by rw [Nat.add_comm]; rfl⟩
  | act effect rest ih =>
    obtain ⟨enough, runs⟩ := ih creates
    exact ⟨enough + 1, fun fuel => by rw [Nat.add_right_comm]; exact runs fuel⟩
  | branch next ih =>
    obtain ⟨enough, runs⟩ := ih s.2.memory creates
    exact ⟨enough + 1, fun fuel => by rw [Nat.add_right_comm]; exact runs fuel⟩
  | future addr rest ih =>
    obtain ⟨enough, runs⟩ := ih creates
    exact ⟨enough + 1, fun fuel => by rw [Nat.add_right_comm]; exact runs fuel⟩
  | awaitAll body rest ihBody ihRest =>
    obtain ⟨hd, w⟩ := s
    obtain ⟨inBody, created, inRest⟩ := creates
    obtain ⟨enough, runsBody⟩ := ihBody inBody
    rw [once]
    generalize once result body w.blocks ([], w.begin.enter w.blocks) = r at *
    obtain ⟨how, s⟩ := r
    dsimp only at created inRest ⊢
    by_cases returns : how = .byReturn
    · -- one unit for the statement, two for the rounds of its loop
      refine ⟨enough + 3, fun fuel => ?_⟩
      have first := runsBody (fuel + 2)
      rw [← Nat.add_assoc] at first
      rw [show enough + 3 + fuel = enough + fuel + 2 + 1 by omega, exec,
        awaitAllLoop_one first created]
      simp [returns, Exit.around]
    · obtain ⟨enough', runsRest⟩ := ihRest (inRest returns)
      refine ⟨enough + enough' + 3, fun fuel => ?_⟩
      have first := runsBody (enough' + fuel + 2)
      have second := runsRest (enough + fuel + 2)
      rw [show enough + (enough' + fuel + 2) = enough + enough' + fuel + 2 by omega] at first
      rw [show enough' + (enough + fuel + 2) = enough + enough' + fuel + 2 by omega] at second
      rw [show enough + enough' + 3 + fuel = enough + enough' + fuel + 2 + 1 by omega, exec,
        awaitAllLoop_one first created, if_neg returns]
      change (if how.around = .byReturn then _ else _) = _
      rw [if_neg (Exit.around_eq_byReturn.not.mpr returns)]
      exact second

/-! ## What a block does -/

def Event.blockEntered : Event → Option ℕ
  | .entered c => some c
  | _ => none

def Event.nodeCreated : Event → Option Node
  | .created _ n => some n
  | _ => none

/-- The futures that block `c` creates, first to last. -/
def createdIn (c : ℕ) (log : List Event) : List Node :=
  log.filterMap fun
    | .created d n => if d = c then some n else none
    | _ => none

/-- The futures that block `c` awaits, first to last. -/
def awaitedIn (c : ℕ) (log : List Event) : List Node :=
  log.filterMap fun
    | .awaited d n => if d = c then some n else none
    | _ => none

@[simp] theorem createdIn_append (c : ℕ) (l m : List Event) :
    createdIn c (l ++ m) = createdIn c l ++ createdIn c m := List.filterMap_append

@[simp] theorem awaitedIn_append (c : ℕ) (l m : List Event) :
    awaitedIn c (l ++ m) = awaitedIn c l ++ awaitedIn c m := List.filterMap_append

@[simp] theorem createdIn_entered (c block : ℕ) (l : List Event) :
    createdIn c (.entered block :: l) = createdIn c l := rfl

@[simp] theorem awaitedIn_entered (c block : ℕ) (l : List Event) :
    awaitedIn c (.entered block :: l) = awaitedIn c l := rfl

theorem mem_createdIn {c : ℕ} {log : List Event} {n : Node} :
    n ∈ createdIn c log ↔ .created c n ∈ log := by
  simp only [createdIn, List.mem_filterMap]
  constructor
  · rintro ⟨e, mem, eq⟩
    cases e <;> grind
  · intro mem
    exact ⟨_, mem, by simp⟩

theorem mem_awaitedIn {c : ℕ} {log : List Event} {n : Node} :
    n ∈ awaitedIn c log ↔ .awaited c n ∈ log := by
  simp only [awaitedIn, List.mem_filterMap]
  constructor
  · rintro ⟨e, mem, eq⟩
    cases e <;> grind
  · intro mem
    exact ⟨_, mem, by simp⟩

/-- The futures of one block are among all that are created, in the same order. -/
theorem createdIn_sublist (c : ℕ) (log : List Event) :
    (createdIn c log).Sublist (log.filterMap Event.nodeCreated) := by
  induction log with
  | nil => exact List.Sublist.refl _
  | cons e log ih =>
    cases e with
    | entered d => exact ih
    | awaited d n => exact ih
    | created d n =>
      by_cases same : d = c
      · simpa [createdIn, Event.nodeCreated, same] using ih
      · simpa [createdIn, Event.nodeCreated, same] using ih.cons n

/-- What the code of block `block` does between two states, with `new` in the log: the
blocks it begins are entered once each and await what they created, last to first; of the
blocks begun before, only `block` itself creates futures, which go to the front of its
list, and none awaits any. -/
structure Effect (block : ℕ) (s s' : State V) (new : List Event) : Prop where
  log : s'.2.log = s.2.log ++ new
  list : s'.1 = (createdIn block new).reverse ++ s.1
  blocks : s.2.blocks ≤ s'.2.blocks
  futures : s.2.futures ≤ s'.2.futures
  entered : ∀ c, (new.filterMap Event.blockEntered).count c =
    if s.2.blocks ≤ c ∧ c < s'.2.blocks then 1 else 0
  awaited : ∀ c, awaitedIn c new = if s.2.blocks ≤ c then (createdIn c new).reverse else []
  others : ∀ c, c ≠ block → c < s.2.blocks → createdIn c new = []
  later : ∀ c, block < c → s'.2.blocks ≤ c → createdIn c new = []
  numbered : (new.filterMap Event.nodeCreated).map Node.f =
    List.range' s.2.futures (s'.2.futures - s.2.futures)

namespace Effect

variable {block : ℕ} {s s' s'' : State V} {new new' : List Event}

theorem silent {hd : List Node} {w : World V} (memory : ℕ → V) :
    Effect block (hd, w) (hd, { w with memory }) [] where
  log := (List.append_nil _).symm
  list := rfl
  blocks := le_rfl
  futures := le_rfl
  entered := by intro c; simp
  awaited := by intro c; split <;> rfl
  others := fun _ _ _ => rfl
  later := fun _ _ _ => rfl
  numbered := by simp

theorem refl : Effect block s s [] := silent s.2.memory

theorem create (inside : block < s.2.blocks) (addr : ℕ) :
    Effect block s (createFuture block addr s) [.created block ⟨s.2.futures, addr⟩] where
  log := rfl
  list := by simp [createFuture, createdIn]
  blocks := le_rfl
  futures := Nat.le_succ _
  entered := by
    intro c
    rw [if_neg (fun both => absurd both.1 (Nat.not_le.mpr both.2))]
    rfl
  awaited := by
    intro c
    have : s.2.blocks ≤ c → block ≠ c := by omega
    split
    · rename_i late
      simp [awaitedIn, createdIn, this late]
    · rfl
  others := by
    intro c other _
    simp [createdIn, Ne.symm other]
  later := by
    intro c late _
    simp [createdIn, Nat.ne_of_lt late]
  numbered := by simp [createFuture, Event.nodeCreated]

theorem trans (inside : block < s.2.blocks) (first : Effect block s s' new)
    (second : Effect block s' s'' new') : Effect block s s'' (new ++ new') where
  log := by rw [second.log, first.log, List.append_assoc]
  list := by simp [second.list, first.list]
  blocks := first.blocks.trans second.blocks
  futures := first.futures.trans second.futures
  entered := by
    intro c
    have := first.blocks
    have := second.blocks
    rw [List.filterMap_append, List.count_append, first.entered, second.entered]
    split_ifs <;> omega
  awaited := by
    intro c
    rw [awaitedIn_append, createdIn_append, first.awaited, second.awaited]
    have := first.blocks
    -- a block is begun by the first part, or by the second, or before both
    by_cases late : s'.2.blocks ≤ c
    · rw [first.later c (by omega) late]
      simp [late, show s.2.blocks ≤ c by omega]
    · by_cases early : s.2.blocks ≤ c
      · rw [second.others c (by omega) (by omega)]
        simp [late, early]
      · simp [late, early]
  others := by
    intro c other early
    rw [createdIn_append, first.others c other early,
      second.others c other (early.trans_le first.blocks)]
    rfl
  later := by
    intro c late after
    rw [createdIn_append, first.later c late (second.blocks.trans after),
      second.later c late after]
    rfl
  numbered := by
    have := first.futures
    have := second.futures
    rw [List.filterMap_append, List.map_append, first.numbered, second.numbered,
      show s''.2.futures - s.2.futures =
        s'.2.futures - s.2.futures + (s''.2.futures - s'.2.futures) by omega,
      ← List.range'_append_1, Nat.add_sub_cancel' first.futures]

/-- The futures of a block are numbered in the order of their creation. -/
theorem created_sorted (effects : Effect block s s' new) (c : ℕ) :
    (createdIn c new).Pairwise fun m n => m.f < n.f := by
  have sorted : ((new.filterMap Event.nodeCreated).map Node.f).Pairwise (· < ·) := by
    rw [effects.numbered]
    exact List.pairwise_lt_range'
  exact (List.pairwise_map.mp sorted).sublist (createdIn_sublist c new)

theorem created_fresh (effects : Effect block s s' new) {c : ℕ} {n : Node}
    (mem : n ∈ createdIn c new) : s.2.futures ≤ n.f := by
  have listed : n.f ∈ (new.filterMap Event.nodeCreated).map Node.f :=
    List.mem_map_of_mem ((createdIn_sublist c new).subset mem)
  rw [effects.numbered] at listed
  exact (List.mem_range'_1.mp listed).1

/-- A future is awaited only by the block that created it, begun here as well. -/
theorem awaited_own (effects : Effect block s s' new) {c : ℕ} {n : Node}
    (mem : .awaited c n ∈ new) : s.2.blocks ≤ c ∧ n ∈ createdIn c new := by
  have awaits := mem_awaitedIn.mpr mem
  rw [effects.awaited] at awaits
  split at awaits
  · exact ⟨by assumption, List.mem_reverse.mp awaits⟩
  · exact absurd awaits List.not_mem_nil

end Effect

variable (result) in
theorem awaitFutureNodes_world (block : ℕ) (hd : List Node) (w : World V) :
    (awaitFutureNodes result block hd w).log = w.log ++ hd.map (.awaited block) ∧
      (awaitFutureNodes result block hd w).blocks = w.blocks ∧
      (awaitFutureNodes result block hd w).futures = w.futures := by
  induction hd generalizing w with
  | nil => simp [awaitFutureNodes]
  | cons n hd ih =>
    obtain ⟨log, blocks, futures⟩ := ih (awaitNode result block w n)
    refine ⟨?_, blocks, futures⟩
    simpa [awaitFutureNodes, awaitNode] using log

@[simp] theorem createdIn_awaits (c block : ℕ) (hd : List Node) :
    createdIn c (hd.map (.awaited block)) = [] := by
  simp [createdIn]

@[simp] theorem awaitedIn_awaits (block : ℕ) (hd : List Node) :
    awaitedIn block (hd.map (.awaited block)) = hd := by
  simp [awaitedIn, List.filterMap_map]

theorem awaitedIn_awaits_of_ne {c block : ℕ} (other : c ≠ block) (hd : List Node) :
    awaitedIn c (hd.map (.awaited block)) = [] := by
  simp [awaitedIn, Ne.symm other]

variable (result) in
/-- A block, from the code of its body. -/
theorem Effect.awaitAll {block : ℕ} (hd : List Node) {w : World V} {s : State V}
    {new : List Event} (inside : block < w.blocks)
    (body : Effect w.blocks ([], w.begin.enter w.blocks) s new) :
    Effect block (hd, w) (hd, awaitFutureNodes result w.blocks s.1 s.2)
      (.entered w.blocks :: (new ++ s.1.map (.awaited w.blocks))) := by
  have awaits := awaitFutureNodes_world result w.blocks s.1 s.2
  have list : s.1 = (createdIn w.blocks new).reverse := by
    rw [body.list, List.append_nil]
  have begun : w.blocks + 1 ≤ s.2.blocks := body.blocks
  have outside (c : ℕ) (early : c < w.blocks) : createdIn c new = [] :=
    body.others c (Nat.ne_of_lt early) (early.trans (Nat.lt_succ_self _))
  constructor
  case log =>
    rw [awaits.1, body.log]
    simp [World.enter, World.begin]
  case list => simp [outside block inside]
  case blocks =>
    rw [awaits.2.1]
    exact (Nat.le_succ _).trans begun
  case futures =>
    rw [awaits.2.2]
    exact body.futures
  case entered =>
    intro c
    have inner : (new.filterMap Event.blockEntered).count c =
        if w.blocks + 1 ≤ c ∧ c < s.2.blocks then 1 else 0 := body.entered c
    have none : (s.1.map (Event.awaited w.blocks)).filterMap Event.blockEntered = [] := by
      simp [Event.blockEntered]
    have first : (Event.entered w.blocks :: (new ++ s.1.map (Event.awaited w.blocks))).filterMap
        Event.blockEntered = w.blocks :: new.filterMap Event.blockEntered := by
      change w.blocks :: (new ++ s.1.map (Event.awaited w.blocks)).filterMap _ = _
      rw [List.filterMap_append, none, List.append_nil]
    rw [first, List.count_cons, inner, awaits.2.1]
    by_cases this : w.blocks = c
    · subst this
      simp [Nat.lt_of_succ_le begun]
    · have : w.blocks + 1 ≤ c ↔ w.blocks ≤ c := by omega
      simp [*]
  case awaited =>
    intro c
    have inner : awaitedIn c new =
        if w.blocks + 1 ≤ c then (createdIn c new).reverse else [] := body.awaited c
    simp only [awaitedIn_entered, awaitedIn_append, createdIn_entered, createdIn_append,
      createdIn_awaits, List.append_nil, inner]
    -- the body awaits nothing for the block itself
    by_cases this : c = w.blocks
    · subst this
      rw [if_neg (by omega), if_pos le_rfl, awaitedIn_awaits, List.nil_append, list]
    · rw [awaitedIn_awaits_of_ne this, List.append_nil]
      split_ifs <;> first | rfl | omega
  case others =>
    intro c _ early
    simp [outside c early]
  case later =>
    intro c late after
    rw [awaits.2.1] at after
    simp [body.later c (begun.trans after) after]
  case numbered =>
    have none : (s.1.map (Event.awaited w.blocks)).filterMap Event.nodeCreated = [] := by
      simp [Event.nodeCreated]
    rw [List.filterMap_cons_none rfl, List.filterMap_append, none, List.append_nil, awaits.2.2]
    exact body.numbered

/-- The list of a block has the futures it created, last to first. -/
theorem Effect.created_reverse {w : World V} {s : State V} {new : List Event}
    (body : Effect w.blocks ([], w.begin.enter w.blocks) s new) :
    createdIn w.blocks (.entered w.blocks :: (new ++ s.1.map (.awaited w.blocks))) =
      s.1.reverse := by
  rw [createdIn_entered, createdIn_append, createdIn_awaits, body.list, List.append_nil,
    List.append_nil, List.reverse_reverse]

variable (result) in
/-- Code run with one round in each block. -/
theorem once_effect (code : Code V) {block : ℕ} {s : State V} (inside : block < s.2.blocks) :
    ∃ new, Effect block s (once result code block s).2 new := by
  induction code generalizing block s with
  | leave how => exact ⟨[], .refl⟩
  | act effect rest ih =>
    obtain ⟨new, effects⟩ := ih (s := (s.1, { s.2 with memory := effect s.2.memory })) inside
    exact ⟨_, (Effect.silent _).trans inside effects⟩
  | branch next ih => exact ih s.2.memory inside
  | future addr rest ih =>
    obtain ⟨new, effects⟩ := ih (s := createFuture block (addr s.2.memory) s) inside
    exact ⟨_, (Effect.create inside _).trans inside effects⟩
  | awaitAll body rest ihBody ihRest =>
    obtain ⟨hd, w⟩ := s
    obtain ⟨new, effects⟩ := ihBody (s := ([], w.begin.enter w.blocks)) (Nat.lt_succ_self w.blocks)
    have here := Effect.awaitAll result hd inside effects
    rw [once]
    split
    · exact ⟨_, here⟩
    · obtain ⟨new', effects'⟩ := ihRest (inside.trans_le here.blocks)
      exact ⟨_, here.trans inside effects'⟩

/-! ## The results -/

/-- An address keeps its value if it is no node's. -/
theorem awaitFutureNodes_other (block : ℕ) {hd : List Node} (w : World V) {a : ℕ}
    (apart : ∀ n ∈ hd, n.r ≠ a) : (awaitFutureNodes result block hd w).memory a = w.memory a := by
  induction hd generalizing w with
  | nil => rfl
  | cons n hd ih =>
    obtain ⟨here, later⟩ := List.forall_mem_cons.mp apart
    calc (awaitFutureNodes result block hd (awaitNode result block w n)).memory a
        = (awaitNode result block w n).memory a := ih _ later
      _ = w.memory a := update_of_ne here.symm _ _

/-- The result of a future is at its address, if no node after it has that address. -/
theorem awaitFutureNodes_result (block : ℕ) (before : List Node) (n : Node) {after : List Node}
    (w : World V) (apart : ∀ m ∈ after, m.r ≠ n.r) :
    (awaitFutureNodes result block (before ++ n :: after) w).memory n.r = result n.f := by
  have split : awaitFutureNodes result block (before ++ n :: after) w =
      awaitFutureNodes result block after
        (awaitNode result block (awaitFutureNodes result block before w) n) :=
    List.foldl_append
  rw [split, awaitFutureNodes_other block _ apart]
  exact update_self _ _ _

/-! ## Runs that do something else -/

def Event.block : Event → ℕ
  | .entered c | .created c _ | .awaited c _ => c

/-- Each of the blocks from `lo` to `hi` is entered once, and awaits what it created, last
to first. -/
def Orderly (lo hi : ℕ) (log : List Event) : Prop :=
  ∀ c, lo ≤ c → c < hi → (log.filterMap Event.blockEntered).count c = 1 ∧
    awaitedIn c log = (createdIn c log).reverse

/-- What any run of the code of block `block` does: its events are those of the block and
of the blocks it begins. -/
structure Trace (block : ℕ) (w w' : World V) (new : List Event) : Prop where
  log : w'.log = w.log ++ new
  blocks : w.blocks ≤ w'.blocks
  within : ∀ e ∈ new, e.block = block ∨ w.blocks ≤ e.block ∧ e.block < w'.blocks

theorem silent_of_block {c : ℕ} {log : List Event} (none : ∀ e ∈ log, e.block ≠ c) :
    (log.filterMap Event.blockEntered).count c = 0 ∧ awaitedIn c log = [] ∧
      createdIn c log = [] := by
  refine ⟨?_, ?_, ?_⟩
  · rw [List.count_eq_zero, List.mem_filterMap]
    rintro ⟨e, mem, eq⟩
    have := none e mem
    cases e <;> simp_all [Event.blockEntered, Event.block]
  · rw [List.eq_nil_iff_forall_not_mem]
    intro n mem
    exact none _ (mem_awaitedIn.mp mem) rfl
  · rw [List.eq_nil_iff_forall_not_mem]
    intro n mem
    exact none _ (mem_createdIn.mp mem) rfl

namespace Trace

variable {block : ℕ} {w w' w'' : World V} {new new' : List Event}

theorem refl : Trace block w w [] := ⟨(List.append_nil _).symm, le_rfl, by simp⟩

theorem trans (first : Trace block w w' new) (second : Trace block w' w'' new') :
    Trace block w w'' (new ++ new') where
  log := by rw [second.log, first.log, List.append_assoc]
  blocks := first.blocks.trans second.blocks
  within := by
    intro e mem
    have := first.blocks
    have := second.blocks
    rcases List.mem_append.mp mem with mem | mem
    · exact (first.within e mem).imp_right fun inside => by omega
    · exact (second.within e mem).imp_right fun inside => by omega

theorem enter : Trace block w (w.enter block) [.entered block] :=
  ⟨rfl, le_rfl, by simp [Event.block]⟩

variable (result) in
theorem await (hd : List Node) :
    Trace block w (awaitFutureNodes result block hd w) (hd.map (.awaited block)) := by
  obtain ⟨log, blocks, -⟩ := awaitFutureNodes_world result block hd w
  exact ⟨log, blocks.ge, by simp [Event.block]⟩

end Trace

/-- What follows concerns other blocks. -/
theorem Orderly.left {block lo : ℕ} {w w' : World V} {new new' : List Event}
    (orderly : Orderly lo w'.blocks (new ++ new')) (later : Trace block w w' new')
    (outside : block < lo) : Orderly lo w.blocks new := by
  intro c low high
  have := later.blocks
  have none : ∀ e ∈ new', e.block ≠ c := by
    intro e mem
    have := later.within e mem
    omega
  obtain ⟨entered, awaited, created⟩ := silent_of_block none
  have both := orderly c low (by omega)
  rw [List.filterMap_append, List.count_append, awaitedIn_append, createdIn_append, entered,
    awaited, created, List.append_nil, List.append_nil] at both
  exact both

/-- What came before concerns other blocks. -/
theorem Orderly.right {block hi : ℕ} {w w' : World V} {new new' : List Event}
    (orderly : Orderly w.blocks hi (new ++ new')) (earlier : Trace block w w' new)
    (outside : block < w.blocks) : Orderly w'.blocks hi new' := by
  intro c low high
  have := earlier.blocks
  have none : ∀ e ∈ new, e.block ≠ c := by
    intro e mem
    have := earlier.within e mem
    omega
  obtain ⟨entered, awaited, created⟩ := silent_of_block none
  have both := orderly c (by omega) high
  rw [List.filterMap_append, List.count_append, awaitedIn_append, createdIn_append, entered,
    awaited, created, Nat.zero_add, List.nil_append, List.nil_append] at both
  exact both

section Loop

variable {block : ℕ} {body : State V → Option (Exit × State V)} {w w' : World V} {how : Exit}

/-- A loop that ends, by its first round. -/
theorem awaitAllLoop_cases {fuel : ℕ}
    (ran : awaitAllLoop result block body fuel ([], w) = some (how, w')) :
    ∃ left s, body ([], w.enter block) = some (left, s) ∧
      (left = .atEnd ∧ s.1 ≠ [] ∧ how = .atEnd ∧ w' = awaitFutureNodes result block s.1 s.2 ∨
        left = .atEnd ∧ s.1 = [] ∧
          (∃ rounds < fuel, awaitAllLoop result block body rounds ([], s.2) = some (how, w')) ∨
        left ≠ .atEnd ∧ how = left.around ∧ w' = s.2) := by
  cases fuel with
  | zero => cases ran
  | succ fuel =>
    rw [awaitAllLoop] at ran
    obtain ⟨⟨left, s⟩, first, rest⟩ := Option.bind_eq_some_iff.mp ran
    refine ⟨left, s, first, ?_⟩
    dsimp only at rest
    split at rest
    · next atEnd =>
      obtain ⟨hd, w₁⟩ := s
      cases hd with
      | nil => exact .inr (.inl ⟨atEnd, rfl, fuel, Nat.lt_succ_self fuel, rest⟩)
      | cons n hd =>
        cases fuel with
        | zero => cases rest
        | succ fuel =>
          cases rest
          exact .inl ⟨atEnd, List.cons_ne_nil _ _, rfl, rfl⟩
    · next left =>
      cases rest
      exact .inr (.inr ⟨left, rfl, rfl⟩)

/-- The events of the loop, from those of its rounds. -/
theorem awaitAllLoop_trace (rounds : ∀ {w how s}, block < w.blocks →
      body ([], w) = some (how, s) → ∃ new, Trace block w s.2 new) {fuel : ℕ}
    (inside : block < w.blocks)
    (ran : awaitAllLoop result block body fuel ([], w) = some (how, w')) :
    ∃ new, Trace block w w' (.entered block :: new) := by
  induction fuel using Nat.strong_induction_on generalizing w with
  | _ fuel ih =>
    obtain ⟨left, s, first, rest⟩ := awaitAllLoop_cases ran
    obtain ⟨new, trace⟩ := rounds (w := w.enter block) inside first
    have entered := Trace.enter.trans trace
    rcases rest with ⟨-, -, -, rfl⟩ | ⟨-, -, later, fewer, again⟩ | ⟨-, -, rfl⟩
    · exact ⟨_, entered.trans (.await result s.1)⟩
    · obtain ⟨new', trace'⟩ := ih later fewer (inside.trans_le trace.blocks) again
      exact ⟨_, entered.trans trace'⟩
    · exact ⟨_, entered⟩

end Loop

/-- A loop that ends, and whose blocks are orderly, makes one round: the body creates a
future and comes to its end, or neither. -/
theorem awaitAllLoop_orderly {fuel fuel' : ℕ} {body : Code V} {w w' : World V} {how : Exit}
    (trace : ∀ {block : ℕ} {s : State V} {how : Exit} {s' : State V}, block < s.2.blocks →
      exec result fuel body block s = some (how, s') → ∃ new, Trace block s.2 s'.2 new ∧
        (Orderly s.2.blocks s'.2.blocks new →
          Creates result body block s ∧ (how, s') = once result body block s))
    (ran : awaitAllLoop result w.blocks (exec result fuel body w.blocks) fuel' ([], w.begin) =
      some (how, w')) :
    ∃ new, Trace w.blocks w.begin w' new ∧ (Orderly w.blocks w'.blocks new →
      let r := once result body w.blocks ([], w.begin.enter w.blocks)
      Creates result body w.blocks ([], w.begin.enter w.blocks) ∧ (r.1 = .atEnd ↔ r.2.1 ≠ []) ∧
        how = r.1.around ∧ w' = awaitFutureNodes result w.blocks r.2.1 r.2.2) := by
  have inside : w.blocks < (w.begin.enter w.blocks).blocks := Nat.lt_succ_self w.blocks
  obtain ⟨left, s, first, rest⟩ := awaitAllLoop_cases ran
  obtain ⟨new, traced, creates⟩ := @trace w.blocks ([], w.begin.enter w.blocks) left s inside first
  have entered := Trace.enter.trans traced
  have begun : w.blocks + 1 ≤ s.2.blocks := traced.blocks
  -- what follows the round concerns this block and blocks begun later
  have follows : ∃ tail, Trace w.blocks s.2 w' tail ∧
      (left = .atEnd ∧ s.1 ≠ [] ∧ how = .atEnd ∧ w' = awaitFutureNodes result w.blocks s.1 s.2 ∨
        left = .atEnd ∧ s.1 = [] ∧ .entered w.blocks ∈ tail ∨
        left ≠ .atEnd ∧ how = left.around ∧ w' = s.2 ∧ tail = []) := by
    rcases rest with ⟨atEnd, some, ends, rfl⟩ | ⟨atEnd, none, rounds, -, again⟩ | ⟨early, ends, rfl⟩
    · exact ⟨_, .await result s.1, .inl ⟨atEnd, some, ends, rfl⟩⟩
    · obtain ⟨tail, later⟩ := @awaitAllLoop_trace _ _ w.blocks _ s.2 _ _
        (fun {w₁ how s} inside ran => by
          obtain ⟨new, traced, -⟩ := @trace w.blocks ([], w₁) how s inside ran
          exact ⟨new, traced⟩) _ begun again
      exact ⟨_, later, .inr (.inl ⟨atEnd, none, List.mem_cons_self⟩)⟩
    · exact ⟨[], .refl, .inr (.inr ⟨early, ends, rfl, rfl⟩)⟩
  obtain ⟨tail, later, ending⟩ := follows
  refine ⟨_, entered.trans later, fun orderly => ?_⟩
  have inner : Orderly (w.blocks + 1) s.2.blocks new := by
    have all : Orderly (w.blocks + 1) w'.blocks ([.entered w.blocks] ++ new ++ tail) :=
      fun c low high => orderly c (by omega) high
    exact (all.left later (Nat.lt_succ_self _)).right
      (Trace.enter : Trace w.blocks w.begin _ _) (Nat.lt_succ_self _)
  obtain ⟨inBody, same⟩ := creates inner
  obtain ⟨new', effects⟩ := once_effect result body (s := ([], w.begin.enter w.blocks)) inside
  rw [← same] at effects ⊢
  obtain rfl : new' = new := List.append_cancel_left (effects.log.symm.trans traced.log)
  have list : s.1 = (createdIn w.blocks new').reverse := by
    rw [effects.list, List.append_nil]
  have quiet : awaitedIn w.blocks new' = [] := by
    rw [effects.awaited]
    exact if_neg (Nat.not_succ_le_self _)
  obtain ⟨entries, awaits⟩ := orderly w.blocks le_rfl (begun.trans later.blocks)
  rcases ending with ⟨atEnd, some, ends, awaited⟩ | ⟨-, -, again⟩ | ⟨early, ends, rfl, rfl⟩
  · exact ⟨inBody, iff_of_true atEnd some, by rw [ends, atEnd]; rfl, awaited⟩
  · -- the block is entered a second time
    have twice : 0 < (tail.filterMap Event.blockEntered).count w.blocks :=
      List.count_pos_iff.mpr (List.mem_filterMap.mpr ⟨_, again, rfl⟩)
    rw [List.filterMap_append, List.filterMap_append,
      List.count_append, List.count_append] at entries
    have once : ([Event.entered w.blocks].filterMap Event.blockEntered).count w.blocks = 1 := by
      simp [Event.blockEntered]
    omega
  · have none : s.1 = [] := by
      rw [list]
      simpa [quiet] using awaits.symm
    exact ⟨inBody, iff_of_false early (not_not.mpr none), ends, by rw [none]; rfl⟩

/-- A run that ends and whose blocks are all orderly is that of `once`. -/
theorem exec_trace {fuel : ℕ} {code : Code V} {block : ℕ} {s : State V} {how : Exit}
    {s' : State V} (inside : block < s.2.blocks)
    (ran : exec result fuel code block s = some (how, s')) :
    ∃ new, Trace block s.2 s'.2 new ∧ (Orderly s.2.blocks s'.2.blocks new →
      Creates result code block s ∧ (how, s') = once result code block s) := by
  induction fuel generalizing code block s how s' with
  | zero => cases ran
  | succ fuel ih =>
    obtain ⟨hd, w⟩ := s
    cases code with
    | leave left =>
      cases ran
      exact ⟨[], .refl, fun _ => ⟨trivial, rfl⟩⟩
    | act effect rest =>
      obtain ⟨new, trace, creates⟩ := ih (s := (hd, { w with memory := effect w.memory }))
        inside ran
      exact ⟨new, ⟨trace.log, trace.blocks, trace.within⟩, creates⟩
    | branch next => exact @ih (next w.memory) block (hd, w) how s' inside ran
    | future addr rest =>
      obtain ⟨new, trace, creates⟩ :=
        ih (s := createFuture block (addr w.memory) (hd, w)) inside ran
      have created : Trace block w (createFuture block (addr w.memory) (hd, w)).2
          [.created block ⟨w.futures, addr w.memory⟩] := ⟨rfl, le_rfl, by simp [Event.block]⟩
      exact ⟨_, created.trans trace, fun orderly => creates (orderly.right created inside)⟩
    | awaitAll body rest =>
      rw [exec] at ran
      obtain ⟨⟨left, w₁⟩, looped, after⟩ := Option.bind_eq_some_iff.mp ran
      dsimp only at after
      obtain ⟨new, loop, creates⟩ := awaitAllLoop_orderly ih looped
      have begun : w.blocks + 1 ≤ w₁.blocks := loop.blocks
      -- seen from outside, the events of the loop are those of blocks begun here
      have trace : Trace block w w₁ new := by
        refine ⟨loop.log, (Nat.le_succ _).trans begun, fun e mem => .inr ?_⟩
        rcases loop.within e mem with own | ⟨low, high⟩
        · omega
        · exact ⟨(Nat.le_succ _).trans low, high⟩
      split at after
      · next returns =>
        cases after
        refine ⟨new, trace, fun orderly => ?_⟩
        obtain ⟨inBody, created, leaves, rfl⟩ := creates orderly
        have left := Exit.around_eq_byReturn.mp (leaves.symm.trans returns)
        exact ⟨⟨inBody, created, fun goes => absurd left goes⟩, by rw [once, if_pos left]⟩
      · next goes =>
        obtain ⟨new', trace', creates'⟩ := ih (s := (hd, w₁)) (inside.trans_le trace.blocks) after
        refine ⟨_, trace.trans trace', fun orderly => ?_⟩
        obtain ⟨inBody, created, leaves, rfl⟩ := creates (orderly.left trace' inside)
        obtain ⟨inRest, same⟩ := creates' (orderly.right trace inside)
        have left := Exit.around_eq_byReturn.not.mp (leaves ▸ goes)
        exact ⟨⟨inBody, created, fun _ => inRest⟩, by rw [once, if_neg left]; exact same⟩

/-! ## The statement -/

/-- `AWAIT_ALL body` ends, with the list of the block around it as it was.  It and the
blocks inside are entered once each, and the futures that a block creates are awaited once
each, last to first, by that block, so that an address holds the result of the first
future that was given it.  No other future is awaited. -/
structure RunsOnce (result : ℕ → V) (body : Code V) (block : ℕ) (hd : List Node) (w : World V)
    (how : Exit) (w' : World V) (new : List Event) : Prop where
  ends : ∃ enough, ∀ fuel ≥ enough,
    exec result fuel (.awaitAll body .done) block (hd, w) = some (how, (hd, w'))
  log : w'.log = w.log ++ new
  begun : w.blocks < w'.blocks
  orderly : Orderly w.blocks w'.blocks new
  distinct : ((createdIn w.blocks new).map Node.f).Nodup
  stored : ∀ n ∈ createdIn w.blocks new,
    (∀ m ∈ createdIn w.blocks new, m.r = n.r → n.f ≤ m.f) → w'.memory n.r = result n.f
  own : ∀ c n, .awaited c n ∈ new → w.blocks ≤ c ∧ .created c n ∈ new ∧ w.futures ≤ n.f

/-- The statement as a whole, if the body is run once. -/
theorem once_awaitAll (body : Code V) (block : ℕ) (hd : List Node) (w : World V) :
    once result (.awaitAll body .done) block (hd, w) =
      let r := once result body w.blocks ([], w.begin.enter w.blocks)
      (r.1.around, (hd, awaitFutureNodes result w.blocks r.2.1 r.2.2)) := by
  rw [once]
  generalize once result body w.blocks ([], w.begin.enter w.blocks) = r
  obtain ⟨how, s⟩ := r
  cases how <;> rfl

theorem runsOnce_of_creates {body : Code V} {block : ℕ} {hd : List Node} {w : World V}
    (inside : block < w.blocks) (creates : Creates result (.awaitAll body .done) block (hd, w)) :
    ∃ how w' new, RunsOnce result body block hd w how w' new := by
  obtain ⟨enough, runs⟩ := exec_once creates
  rw [once_awaitAll] at runs
  obtain ⟨new, inner⟩ := once_effect result body (s := ([], w.begin.enter w.blocks))
    (Nat.lt_succ_self w.blocks)
  have effects := inner.awaitAll result hd inside
  have sorted := effects.created_sorted w.blocks
  have begun : w.blocks + 1 ≤ _ := inner.blocks
  refine ⟨(once result body w.blocks ([], w.begin.enter w.blocks)).1.around, _, _,
    ⟨enough, fun fuel large => ?_⟩, effects.log, ?_, ?_, ?_, ?_, ?_⟩
  · rw [← Nat.add_sub_cancel' large]
    exact runs _
  · rw [(awaitFutureNodes_world result _ _ _).2.1]
    exact begun
  · intro c low high
    exact ⟨by rw [effects.entered, if_pos ⟨low, high⟩], by rw [effects.awaited, if_pos low]⟩
  · exact List.pairwise_map.mpr (sorted.imp Nat.ne_of_lt)
  · intro n mem first
    rw [inner.created_reverse] at mem first sorted
    obtain ⟨before, after, split⟩ := List.append_of_mem (List.mem_reverse.mp mem)
    rw [split] at sorted first ⊢
    refine awaitFutureNodes_result w.blocks before n _ fun m later same => ?_
    -- the list has the later futures first
    have smaller : m.f < n.f := by
      rw [List.pairwise_reverse, List.pairwise_append] at sorted
      exact List.rel_of_pairwise_cons sorted.2.1 later
    have := first m (by simp [later]) same
    omega
  · intro c n mem
    obtain ⟨late, created⟩ := effects.awaited_own mem
    exact ⟨late, mem_createdIn.mp created, effects.created_fresh created⟩

/-- `AWAIT_ALL body` runs as it should if and only if every block that is entered, this
one and those inside, creates a future and comes to its end, or is left by `break` or
`return` before it has created one. -/
theorem awaitAll_once_iff (result : ℕ → V) (body : Code V) (block : ℕ) (hd : List Node)
    (w : World V) (inside : block < w.blocks) :
    (∃ how w' new, RunsOnce result body block hd w how w' new) ↔
      Creates result (.awaitAll body .done) block (hd, w) := by
  constructor
  · rintro ⟨how, w', new, runs⟩
    obtain ⟨enough, ran⟩ := runs.ends
    obtain ⟨new', trace, creates⟩ := exec_trace inside (ran enough le_rfl)
    obtain rfl : new' = new := List.append_cancel_left (trace.log.symm.trans runs.log)
    exact (creates runs.orderly).1
  · exact runsOnce_of_creates inside

/-- The body of a block with two futures and, inside, a block with two more. -/
def nestedBlocks : Code ℕ :=
  .future (fun _ => 0) <| .future (fun _ => 1) <|
    .awaitAll (.future (fun _ => 2) <| .future (fun _ => 3) .done) .done

/-- Before any block; the code outside counts as block 0. -/
def World.start : World ℕ := ⟨fun _ => 0, 0, 1, []⟩

theorem awaitAll_once_nested :
    Creates (· + 10) (.awaitAll nestedBlocks .done) 0 ([], .start) ∧
      ∃ how w' new, RunsOnce (· + 10) nestedBlocks 0 [] .start how w' new :=
  have creates : Creates (· + 10) (.awaitAll nestedBlocks .done) 0 ([], .start) :=
    ⟨⟨trivial, iff_of_true rfl (List.cons_ne_nil _ _), fun _ => trivial⟩,
      iff_of_true rfl (List.cons_ne_nil _ _), fun _ => trivial⟩
  ⟨creates, (awaitAll_once_iff (· + 10) nestedBlocks 0 [] .start Nat.zero_lt_one).mpr creates⟩

/-- An empty body is run again and again, because the condition finds `hd` to be `NULL` each
time. -/
theorem awaitAllLoop_empty (block fuel rounds : ℕ) (w : World V) :
    awaitAllLoop result block (exec result fuel .done block) rounds ([], w) = none := by
  induction rounds generalizing w with
  | zero => rfl
  | succ rounds ih =>
    cases fuel with
    | zero => rfl
    | succ fuel => exact ih _

/-- A body that creates a future only if the address 0 was set before, and sets it. -/
def secondTime : Code ℕ :=
  .branch fun memory =>
    if memory 0 = 0 then .act (update · 0 1) .done else .future (fun _ => 1) .done

/-- Without a future the block does not end: an empty one runs forever, and a body that
does not create one at first is entered a second time.  A body that creates one and is
left by `break` does not await it. -/
theorem empty_block_repeats :
    (¬ ∃ fuel r, exec (· + 10) fuel (.awaitAll .done .done) 0 ([], .start) = some r) ∧
      (exec (· + 10) 5 (.awaitAll secondTime .done) 0 ([], .start)).map (·.2.2.log) =
        some [.entered 1, .entered 1, .created 1 ⟨0, 1⟩, .awaited 1 ⟨0, 1⟩] ∧
      (exec (· + 10) 5 (.awaitAll (.future (fun _ => 1) (.leave .byBreak)) .done) 0
        ([], .start)).map (·.2.2.log) = some [.entered 1, .created 1 ⟨0, 1⟩] := by
  refine ⟨?_, by decide, by decide⟩
  rintro ⟨fuel, r, ends⟩
  cases fuel with
  | zero => exact absurd ends (Option.some_ne_none r).symm
  | succ fuel =>
    rw [exec, awaitAllLoop_empty] at ends
    exact absurd ends (Option.some_ne_none r).symm

end Tasking.ScopedFutures
