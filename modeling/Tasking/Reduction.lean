import Mathlib.Algebra.BigOperators.Group.Finset.Basic
import Tasking.LoopSplitting
import Tasking.Runtime

/-!
`REDUCE` over a `FUTURE` loop.  A task that runs such a loop accumulates the
values of its iterations, then awaits the futures in its list `futures` and adds
their values; what it returns is its own future's value.  `split_loop` puts the
future of the part it cuts off into the list of the *current* task.

A piece is a loop task, as created by `FUTURE` or cut off another piece.  Each
worker has a stack of the tasks it is running, and may hold one it has popped and
not started; `RT_pop` splits that one, while the current task is another.

- `step_sound`: as long as only running tasks are split, what a piece has
  accumulated, still has to execute and has in its list make up its range.
- `splitLoop_registers` and the two lemmas after it connect this to the runtime's
  `split_loop`.
-/
namespace Tasking.Reduction
open Loops Fallible Transition LoopSplitting Function

attribute [local instance] intervalOrder

variable {α : Type} [AddCommMonoid α]

/-! ## The machine -/

/-- A loop task whose body adds up a value per iteration. -/
structure Piece (α : Type) where
  frag : Fragment
  /-- What an iteration adds. -/
  body : ℤ → α
  /-- The variable given to `REDUCE`. -/
  acc : α
  /-- `futures` of the task; a future is named by the piece that will set it. -/
  futures : List ℕ
  /-- The future `REDUCE` has removed from the list and awaits. -/
  awaiting : Option ℕ
  /-- What the task returned. -/
  value : Option α
  /-- A worker has popped or received it. -/
  taken : Bool
  /-- Ghost: its bounds when it was created, and the piece it was cut off. -/
  lo : ℤ
  hi : ℤ
  parent : Option ℕ

/-- A task on a worker's stack: a piece, or any other task with its `futures`. -/
inductive Running where
  | piece (k : ℕ)
  | other (futures : List ℕ)
  deriving DecidableEq, Repr

structure Worker where
  /-- The task `RT_pop` is about to return, or `RECV_TASK` has returned. -/
  held : Option ℕ
  /-- Innermost first.  The master's root task is at the bottom of its stack. -/
  stack : List Running
  deriving DecidableEq, Repr

structure State (α : Type) where
  pieces : ℕ → Piece α
  next : ℕ
  workers : ℕ → Worker

inductive Act (α : Type) where
  /-- `FUTURE` of a loop, in the current task. -/
  | spawn (ID : ℕ) (lo hi : ℤ) (body : ℤ → α)
  | take (ID k : ℕ)
  /-- `RT_pop` splits the task it has popped. -/
  | splitHeld (ID pending : ℕ)
  | run (ID : ℕ)
  /-- `run_task` of a task that is not a piece, and its end. -/
  | call (ID : ℕ)
  | leave (ID : ℕ)
  /-- `handle` splits the current task. -/
  | splitCurrent (ID pending : ℕ)
  /-- The current task moves on in `ASYNC_FOR`. -/
  | loop (ID : ℕ) (move : Move)
  /-- `REDUCE` removes the first future of the current task and awaits it. -/
  | reduce (ID : ℕ)
  /-- The awaited value arrives. -/
  | collect (ID : ℕ)
  | finish (ID : ℕ)

def State.setPiece (s : State α) (k : ℕ) (p : Piece α) : State α :=
  { s with pieces := update s.pieces k p }

def State.setWorker (s : State α) (ID : ℕ) (x : Worker) : State α :=
  { s with workers := update s.workers ID x }

def Piece.new (frag : Fragment) (body : ℤ → α) (parent : Option ℕ) : Piece α where
  frag := frag
  body := body
  acc := 0
  futures := []
  awaiting := none
  value := none
  taken := false
  lo := frag.range.start
  hi := frag.range.stop
  parent := parent

def State.add (s : State α) (p : Piece α) : State α :=
  { s with pieces := update s.pieces s.next p, next := s.next + 1 }

/-- `get_current_task()->futures = p`. -/
def State.register (s : State α) (ID f : ℕ) : Checked (State α) :=
  match (s.workers ID).stack with
  | [] => .error (.fault .splitLoopNullTask)
  | .piece k :: _ =>
    return s.setPiece k { s.pieces k with futures := f :: (s.pieces k).futures }
  | .other futures :: rest =>
    return s.setWorker ID { s.workers ID with stack := .other (f :: futures) :: rest }

/-- `split_loop` of piece `k`, by worker `ID`. -/
def splitLoop (strategy : SplitStrategy) (numWorkers : ℕ) (s : State α) (ID k pending : ℕ) :
    Checked (State α) := do
  match ← (s.pieces k).frag.move strategy numWorkers (.split pending) with
  | ([kept, sent], _) =>
    let s ← s.register ID s.next
    let s := s.setPiece k { s.pieces k with frag := kept }
    return s.add (.new sent (s.pieces k).body (some k))
  | _ => .error .disabled

/-- Piece `k` moves on in its loop, and adds the values of the iterations it
executes. -/
def advance (strategy : SplitStrategy) (numWorkers : ℕ) (s : State α) (k : ℕ) (m : Move) :
    Checked (State α) := do
  match ← (s.pieces k).frag.move strategy numWorkers m with
  | ([frag], ran) =>
    return s.setPiece k { s.pieces k with
      frag := frag, acc := (s.pieces k).acc + (ran.map (s.pieces k).body).sum }
  | _ => .error .disabled

def step (strategy : SplitStrategy) (numWorkers : ℕ) (s : State α) : Act α → Checked (State α)
  | .spawn ID lo hi body => do
    await ((s.workers ID).stack ≠ [])
    return s.add (.new ⟨⟨lo, lo, hi⟩, .waiting⟩ body none)
  | .take ID k => do
    await (k < s.next ∧ (s.pieces k).taken = false ∧ (s.workers ID).held = none)
    return (s.setPiece k { s.pieces k with taken := true }).setWorker ID
      { s.workers ID with held := some k }
  | .splitHeld ID pending =>
    match (s.workers ID).held with
    | none => .error .disabled
    | some k => splitLoop strategy numWorkers s ID k pending
  | .run ID =>
    match (s.workers ID).held with
    | none => .error .disabled
    | some k => do
      let s ← advance strategy numWorkers s k .start
      return s.setWorker ID ⟨none, .piece k :: (s.workers ID).stack⟩
  | .call ID => do
    await ((s.workers ID).held = none)
    return s.setWorker ID ⟨none, .other [] :: (s.workers ID).stack⟩
  | .leave ID =>
    match (s.workers ID).stack with
    | .other _ :: rest => return s.setWorker ID { s.workers ID with stack := rest }
    | _ => .error .disabled
  | .splitCurrent ID pending =>
    match (s.workers ID).stack with
    | .piece k :: _ => splitLoop strategy numWorkers s ID k pending
    | _ => .error .disabled
  | .loop ID m =>
    match (s.workers ID).stack with
    | .piece k :: _ => advance strategy numWorkers s k m
    | _ => .error .disabled
  | .reduce ID =>
    match (s.workers ID).stack with
    | .piece k :: _ =>
      match (s.pieces k).frag.phase, (s.pieces k).awaiting, (s.pieces k).futures with
      | .done, none, f :: rest =>
        return s.setPiece k { s.pieces k with futures := rest, awaiting := some f }
      | _, _, _ => .error .disabled
    | .other (_ :: futures) :: rest =>
      return s.setWorker ID { s.workers ID with stack := .other futures :: rest }
    | _ => .error .disabled
  | .collect ID =>
    match (s.workers ID).stack with
    | .piece k :: _ =>
      match (s.pieces k).awaiting with
      | none => .error .disabled
      | some f =>
        match (s.pieces f).value with
        | none => .error .disabled
        | some v =>
          return s.setPiece k { s.pieces k with acc := (s.pieces k).acc + v, awaiting := none }
    | _ => .error .disabled
  | .finish ID =>
    match (s.workers ID).stack with
    | .piece k :: rest => do
      await ((s.pieces k).frag.phase = .done ∧ (s.pieces k).awaiting = none ∧
        (s.pieces k).futures = [])
      return (s.setPiece k { s.pieces k with value := some (s.pieces k).acc }).setWorker ID
        { s.workers ID with stack := rest }
    | _ => .error .disabled

/-- No piece yet, and the master in its root task. -/
def State.init : State α where
  pieces _ := .new ⟨⟨0, 0, 0⟩, .waiting⟩ (fun _ => 0) none
  next := 0
  workers ID := ⟨none, if ID = 0 then [.other []] else []⟩

/-- The runs in which every step is allowed. -/
def system (strategy : SplitStrategy) (numWorkers : ℕ) (allowed : Act α → Prop) :
    System (State α) where
  init s := s = State.init
  step s s' := ∃ act, allowed act ∧ step strategy numWorkers s act = .ok s'

/-- Loops have the bounds the splitting strategies are made for. -/
def Act.Bounded : Act α → Prop
  | .spawn _ lo hi _ => Bounds lo hi
  | _ => True

/-- `split_loop` is not called by `RT_pop`, where the task that is split is not the current one.
-/
def Act.SplitsRunning : Act α → Prop
  | .splitHeld _ _ => False
  | _ => True

/-! ## What a piece owes -/

def total (body : ℤ → α) (iterations : Multiset ℤ) : α := (iterations.map body).sum

theorem total_add (body : ℤ → α) (a b : Multiset ℤ) :
    total body (a + b) = total body a + total body b := by
  simp [total]

theorem total_coe (body : ℤ → α) (l : List ℤ) : total body l = (l.map body).sum := by
  simp [total]

/-- The fold over the range a piece was created with. -/
def Piece.whole (p : Piece α) : α := total p.body (Multiset.Ico p.lo p.hi)

/-- The futures a piece will still add. -/
def Piece.parts (p : Piece α) : List ℕ := p.futures ++ p.awaiting.toList

/-- What a piece has accumulated, has still to execute, and will get from the
parts cut off it make up its range. -/
structure PieceOk (pieces : ℕ → Piece α) (next k : ℕ) (p : Piece α) : Prop where
  bounds : Bounds p.lo p.hi
  frag : p.frag.Ok p.lo p.hi
  balance : p.acc + total p.body p.frag.remaining +
    (p.parts.map fun j => (pieces j).whole).sum = p.whole
  parts : ∀ j ∈ p.parts, j < next ∧ (pieces j).parent = some k
  value : ∀ v, p.value = some v → v = p.whole

/-- The list of every task other than a piece is empty. -/
structure Sound (s : State α) : Prop where
  pieces : ∀ k < s.next, PieceOk s.pieces s.next k (s.pieces k)
  others : ∀ ID futures, .other futures ∈ (s.workers ID).stack → futures = []
  known : ∀ ID k, (s.workers ID).held = some k ∨ .piece k ∈ (s.workers ID).stack → k < s.next

variable {s : State α} {p : Piece α} {ID k : ℕ}

/-- What a piece owes only depends on the ranges of the others. -/
theorem PieceOk.frame {pieces pieces' : ℕ → Piece α} {next next' : ℕ}
    (ok : PieceOk pieces next k p) (more : next ≤ next')
    (same : ∀ j < next, (pieces' j).whole = (pieces j).whole ∧
      (pieces' j).parent = (pieces j).parent) : PieceOk pieces' next' k p where
  bounds := ok.bounds
  frag := ok.frag
  balance := by
    rw [← ok.balance]
    congr 2
    exact List.map_congr_left fun j mem => (same j (ok.parts j mem).1).1
  parts j mem := by
    obtain ⟨inside, parent⟩ := ok.parts j mem
    exact ⟨lt_of_lt_of_le inside more, (same j inside).2 ▸ parent⟩
  value := ok.value

theorem Sound.setPiece (sound : Sound s) (whole : p.whole = (s.pieces k).whole)
    (parent : p.parent = (s.pieces k).parent) (ok : PieceOk s.pieces s.next k p) :
    Sound (s.setPiece k p) where
  pieces i inside := by
    have same : ∀ j < s.next, (update s.pieces k p j).whole = (s.pieces j).whole ∧
        (update s.pieces k p j).parent = (s.pieces j).parent := by
      intro j _
      by_cases this : j = k
      · subst this
        simp [whole, parent]
      · simp [update_of_ne this]
    by_cases this : i = k
    · subst this
      simp only [State.setPiece, update_self]
      exact ok.frame le_rfl same
    · simp only [State.setPiece, update_of_ne this]
      exact (sound.pieces i inside).frame le_rfl same
  others := sound.others
  known := sound.known

theorem Sound.setWorker (sound : Sound s) {x : Worker}
    (others : ∀ futures, .other futures ∈ x.stack → futures = [])
    (known : ∀ k, x.held = some k ∨ .piece k ∈ x.stack → k < s.next) :
    Sound (s.setWorker ID x) where
  pieces := sound.pieces
  others i futures := by
    by_cases this : i = ID
    · subst this
      simpa [State.setWorker] using others futures
    · simpa [State.setWorker, update_of_ne this] using sound.others i futures
  known i k := by
    by_cases this : i = ID
    · subst this
      simpa [State.setWorker] using known k
    · simpa [State.setWorker, update_of_ne this] using sound.known i k

theorem Sound.add (sound : Sound s) {frag : Fragment} {body : ℤ → α} {parent : Option ℕ}
    (bounds : Bounds frag.range.start frag.range.stop)
    (ok : frag.Ok frag.range.start frag.range.stop)
    (fresh : frag.remaining = Multiset.Ico frag.range.start frag.range.stop) :
    Sound (s.add (.new frag body parent)) where
  pieces i inside := by
    have same : ∀ j < s.next,
        update s.pieces s.next (.new frag body parent) j = s.pieces j :=
      fun j old => update_of_ne (ne_of_lt old) _ _
    rcases Nat.lt_succ_iff_lt_or_eq.mp inside with old | rfl
    · simp only [State.add, same i old]
      exact (sound.pieces i old).frame (Nat.le_succ _) fun j old => by simp [same j old]
    · simp only [State.add, update_self]
      refine ⟨bounds, ok, ?_, by simp [Piece.parts, Piece.new], by simp [Piece.new]⟩
      simp [Piece.new, Piece.parts, Piece.whole, fresh]
  others := sound.others
  known i k mem := Nat.lt_succ_of_lt (sound.known i k mem)

/-! ## One step -/

section Step

variable {strategy : SplitStrategy} {numWorkers : ℕ} {rest : List Running} {ID : ℕ}

theorem Sound.current (sound : Sound s) (top : (s.workers ID).stack = .piece k :: rest) :
    k < s.next :=
  sound.known ID k (.inr (top ▸ .head _))

theorem Sound.others_tail (sound : Sound s) {running : Running}
    (top : (s.workers ID).stack = running :: rest) :
    ∀ futures, .other futures ∈ rest → futures = [] :=
  fun futures mem => sound.others ID futures (top ▸ .tail _ mem)

theorem Sound.known_tail (sound : Sound s) {running : Running}
    (top : (s.workers ID).stack = running :: rest) :
    ∀ k, (s.workers ID).held = some k ∨ .piece k ∈ rest → k < s.next :=
  fun k mem => sound.known ID k (mem.imp_right fun mem => top ▸ .tail _ mem)

theorem advance_sound (sound : Sound s) (inside : k < s.next) (m : Move) :
    Ensures (fun _ => False) (advance strategy numWorkers s k m) fun s' =>
      Sound s' ∧ s'.next = s.next ∧ s'.workers = s.workers := by
  have ok := sound.pieces k inside
  refine ensures_bind.mpr ((move_sound ok.bounds ok.frag).mono ?_)
  rintro ⟨frags, ran⟩ ⟨fragsOk, covered, -⟩
  match frags with
  | [frag] =>
    refine ⟨sound.setPiece rfl rfl ⟨ok.bounds, fragsOk frag (.head _), ?_, ok.parts, ok.value⟩,
      rfl, rfl⟩
    have moved : total (s.pieces k).body frag.remaining + (ran.map (s.pieces k).body).sum =
        total (s.pieces k).body (s.pieces k).frag.remaining := by
      rw [← covered, total_add, total_coe]
      simp
    change (s.pieces k).acc + (ran.map (s.pieces k).body).sum +
      total (s.pieces k).body frag.remaining +
      ((s.pieces k).parts.map fun j => (s.pieces j).whole).sum = (s.pieces k).whole
    rw [← ok.balance, ← moved]
    abel
  | [] => trivial
  | _ :: _ :: _ => trivial

theorem splitLoop_current {pending : ℕ} (top : (s.workers ID).stack = .piece k :: rest)
    (inside : k < s.next) :
    splitLoop strategy numWorkers s ID k pending = (do
      match ← (s.pieces k).frag.move strategy numWorkers (.split pending) with
      | ([kept, sent], _) =>
        return (s.add (.new sent (s.pieces k).body (some k))).setPiece k
          { s.pieces k with frag := kept, futures := s.next :: (s.pieces k).futures }
      | _ => .error .disabled) := by
  have other : s.next ≠ k := ne_of_gt inside
  unfold splitLoop
  congr 1
  funext result
  simp only [State.register, top]
  split
  · simp only [pure_bind, State.setPiece, State.add, update_self, update_idem]
    rw [update_comm other]
  · rfl

/-- A part of a range has bounds of the same kind. -/
theorem bounds_part {lo hi lo' hi' : ℤ} (bounds : Bounds lo hi) (above : lo ≤ lo')
    (below : hi' ≤ hi) (upward : lo' ≤ hi') : Bounds lo' hi' := by
  obtain ⟨-, ⟨loLow, loHigh⟩, ⟨hiLow, hiHigh⟩, ⟨widthLow, widthHigh⟩⟩ := bounds
  exact ⟨upward, ⟨by omega, by omega⟩, ⟨by omega, by omega⟩, ⟨by omega, by omega⟩⟩

/-- What `split_loop` makes of a fragment: two that hold its iterations between them. -/
theorem move_split {f : Fragment} {lo hi : ℤ} (bounds : Bounds lo hi) (ok : f.Ok lo hi)
    (pending : ℕ) :
    Ensures (fun _ => False) (f.move strategy numWorkers (.split pending)) fun (frags, _) =>
      ∃ kept sent : Fragment, frags = [kept, sent] ∧ kept.Ok lo hi ∧
        Bounds sent.range.start sent.range.stop ∧ sent.Ok sent.range.start sent.range.stop ∧
        sent.remaining = Multiset.Ico sent.range.start sent.range.stop ∧
        kept.remaining + sent.remaining = f.remaining := by
  have sound := @move_sound lo hi strategy numWorkers f (.split pending) bounds ok
  simp only [Fragment.move, ensures_bind, ensures_await] at sound ⊢
  intro more
  refine (sound more).mono fun split both => ?_
  obtain ⟨fragsOk, covered, -⟩ := both
  obtain ⟨above, below, cur, upward⟩ : (⟨f.range.upper split, .waiting⟩ : Fragment).Ok lo hi :=
    fragsOk _ (.tail _ (.head _))
  exact ⟨_, _, rfl, fragsOk _ (.head _), bounds_part bounds above below upward,
    ⟨le_rfl, le_rfl, cur, upward⟩, rfl, by simpa using covered⟩

theorem splitCurrent_sound (sound : Sound s) {pending : ℕ}
    (top : (s.workers ID).stack = .piece k :: rest) :
    Ensures (fun _ => False) (splitLoop strategy numWorkers s ID k pending) fun s' =>
      Sound s' ∧ (s'.pieces k).futures = s.next :: (s.pieces k).futures := by
  have inside := sound.current top
  have ok := sound.pieces k inside
  rw [splitLoop_current top inside]
  refine ensures_bind.mpr ((move_split ok.bounds ok.frag pending).mono ?_)
  rintro ⟨frags, ran⟩ ⟨kept, sent, rfl, keptOk, sentBounds, sentOk, fresh, covered⟩
  simp only [ensures_pure]
  refine ⟨?_, by simp [State.setPiece]⟩
  -- the part joins the pieces, and then the list of the piece it was cut off
  have joined : Sound (s.add (.new sent (s.pieces k).body (some k))) :=
    sound.add sentBounds sentOk fresh
  have old : (s.add (.new sent (s.pieces k).body (some k))).pieces k = s.pieces k :=
    update_of_ne (ne_of_lt inside) _ _
  have new : (s.add (.new sent (s.pieces k).body (some k))).pieces s.next =
      .new sent (s.pieces k).body (some k) := update_self ..
  have ok' := joined.pieces k (Nat.lt_succ_of_lt inside)
  rw [old] at ok'
  refine joined.setPiece (by rw [old]; rfl) (by rw [old]) ⟨ok'.bounds, keptOk, ?_, ?_, ok'.value⟩
  · change (s.pieces k).acc + total (s.pieces k).body kept.remaining +
      ((s.next :: (s.pieces k).parts).map
        fun j => ((s.add (.new sent (s.pieces k).body (some k))).pieces j).whole).sum =
      (s.pieces k).whole
    have part : (Piece.new sent (s.pieces k).body (some k)).whole =
        total (s.pieces k).body sent.remaining := by rw [fresh]; rfl
    rw [← ok'.balance, List.map_cons, List.sum_cons, new, part, ← covered, total_add]
    abel
  · intro j mem
    rcases List.mem_cons.mp (mem : j ∈ s.next :: (s.pieces k).parts) with rfl | mem
    · exact ⟨Nat.lt_succ_self _, by rw [new]; rfl⟩
    · exact ok'.parts j mem

theorem take_sound (sound : Sound s) {ID k : ℕ} :
    Ensures (fun _ => False) (step strategy numWorkers s (.take ID k)) Sound := by
  simp only [step, ensures_bind, ensures_await, ensures_pure]
  rintro ⟨inside, -, -⟩
  have ok := sound.pieces k inside
  have ok' : PieceOk s.pieces s.next k { s.pieces k with taken := true } :=
    ⟨ok.bounds, ok.frag, ok.balance, ok.parts, ok.value⟩
  have sound' : Sound (s.setPiece k { s.pieces k with taken := true }) :=
    sound.setPiece rfl rfl ok'
  refine sound'.setWorker (fun futures => sound.others ID futures) ?_
  rintro j (held | mem)
  · cases held
    exact inside
  · exact sound.known ID j (.inr mem)

theorem run_sound (sound : Sound s) :
    Ensures (fun _ => False) (step strategy numWorkers s (.run ID)) Sound := by
  simp only [step]
  split
  · trivial
  next k held =>
    have inside := sound.known ID k (.inl held)
    refine ensures_bind.mpr ((advance_sound sound inside .start).mono ?_)
    rintro s' ⟨sound', next, workers⟩
    refine sound'.setWorker ?_ ?_
    · rintro futures (_ | ⟨_, mem⟩)
      exact sound'.others ID futures mem
    · rintro j (held | mem)
      · cases held
      · rcases List.mem_cons.mp mem with same | mem
        · cases same
          exact next ▸ inside
        · exact sound'.known ID j (.inr mem)

/-- A round of `REDUCE`: the future moves from the list to `awaiting`. -/
theorem reduce_sound (sound : Sound s) :
    Ensures (fun _ => False) (step strategy numWorkers s (.reduce ID)) Sound := by
  simp only [step]
  split
  · next k rest top =>
    have ok := sound.pieces k (sound.current top)
    split
    · next f others phase none first =>
      have parts : (s.pieces k).parts = f :: others := by simp [Piece.parts, none, first]
      have parts' : ∀ {q : Piece α}, q.futures = others → q.awaiting = some f →
          List.Perm q.parts (s.pieces k).parts := by
        intro q list awaits
        rw [parts, Piece.parts, list, awaits]
        exact List.perm_append_singleton f others
      refine sound.setPiece rfl rfl ⟨ok.bounds, ok.frag, ?_, ?_, ok.value⟩
      · rw [((parts' rfl rfl).map _).sum_eq]
        exact ok.balance
      · exact fun j mem => ok.parts j ((parts' rfl rfl).mem_iff.mp mem)
    · trivial
  · next f others rest top =>
    have empty : f :: others = [] := sound.others ID _ (top ▸ List.Mem.head _)
    cases empty
  · trivial

/-- The value of a future that was awaited is added to the accumulator. -/
theorem collect_sound (sound : Sound s) :
    Ensures (fun _ => False) (step strategy numWorkers s (.collect ID)) Sound := by
  simp only [step]
  split
  · next k rest top =>
    have ok := sound.pieces k (sound.current top)
    split
    · trivial
    next f awaits =>
      split
      · trivial
      next v returned =>
        have mem : f ∈ (s.pieces k).parts := by simp [Piece.parts, awaits]
        have whole := (sound.pieces f (ok.parts f mem).1).value v returned
        have parts : (s.pieces k).parts = (s.pieces k).futures ++ [f] := by
          simp [Piece.parts, awaits]
        refine sound.setPiece rfl rfl ⟨ok.bounds, ok.frag, ?_, ?_, ok.value⟩
        · change (s.pieces k).acc + v + total (s.pieces k).body (s.pieces k).frag.remaining +
            (((s.pieces k).futures ++ []).map fun j => (s.pieces j).whole).sum =
            (s.pieces k).whole
          rw [← ok.balance, parts, whole]
          simp only [List.map_append, List.sum_append, List.map_cons, List.map_nil,
            List.sum_cons, List.sum_nil]
          abel
        · intro j mem
          have listed : j ∈ (s.pieces k).futures := by simpa [Piece.parts] using mem
          exact ok.parts j (parts ▸ List.mem_append_left _ listed)
  · trivial

/-- A piece that returns has nothing left, so that its accumulator is the whole. -/
theorem finish_sound (sound : Sound s) :
    Ensures (fun _ => False) (step strategy numWorkers s (.finish ID)) Sound := by
  simp only [step]
  split
  · next k rest top =>
    simp only [ensures_bind, ensures_await, ensures_pure]
    rintro ⟨phase, awaits, list⟩
    have ok := sound.pieces k (sound.current top)
    have whole : (s.pieces k).acc = (s.pieces k).whole := by
      rw [← ok.balance]
      simp [Piece.parts, awaits, list, Fragment.remaining, phase, total]
    have ok' : PieceOk s.pieces s.next k
        { s.pieces k with value := some (s.pieces k).acc } := by
      refine ⟨ok.bounds, ok.frag, ok.balance, ok.parts, ?_⟩
      rintro v ⟨⟩
      exact whole
    have sound' : Sound (s.setPiece k { s.pieces k with value := some (s.pieces k).acc }) :=
      sound.setPiece rfl rfl ok'
    exact sound'.setWorker (sound.others_tail top) (sound.known_tail top)
  · trivial

/-- A step that does not split a task just popped. -/
theorem step_sound (sound : Sound s) {act : Act α} (bounded : act.Bounded)
    (running : act.SplitsRunning) :
    Ensures (fun _ => False) (step strategy numWorkers s act) Sound := by
  cases act with
  | spawn ID lo hi body =>
    simp only [step, ensures_bind, ensures_await, ensures_pure]
    intro _
    exact sound.add bounded ⟨le_rfl, le_rfl, rfl, bounded.upward⟩ rfl
  | take ID k => exact take_sound sound
  | splitHeld ID pending => exact running.elim
  | run ID => exact run_sound sound
  | call ID =>
    simp only [step, ensures_bind, ensures_await, ensures_pure]
    intro _
    refine sound.setWorker ?_ ?_
    · intro futures mem
      rcases List.mem_cons.mp mem with same | mem
      · cases same
        rfl
      · exact sound.others ID futures mem
    · rintro j (held | mem)
      · cases held
      · exact sound.known ID j (.inr ((List.mem_cons.mp mem).resolve_left (by simp)))
  | leave ID =>
    simp only [step]
    split
    · next top => exact sound.setWorker (sound.others_tail top) (sound.known_tail top)
    · trivial
  | splitCurrent ID pending =>
    simp only [step]
    split
    · next top => exact (splitCurrent_sound sound top).mono fun s' both => both.1
    · trivial
  | loop ID m =>
    simp only [step]
    split
    · next top => exact (advance_sound sound (sound.current top) m).mono fun s' both => both.1
    · trivial
  | reduce ID => exact reduce_sound sound
  | collect ID => exact collect_sound sound
  | finish ID => exact finish_sound sound

end Step

/-! ## Whole runs -/

theorem init_sound : Sound (State.init : State α) where
  pieces := by simp [State.init]
  others ID futures mem := by
    by_cases master : ID = 0 <;> simp_all [State.init]
  known ID k mem := by
    by_cases master : ID = 0 <;> simp_all [State.init]

theorem reachable_sound {strategy : SplitStrategy} {numWorkers : ℕ}
    (reached : (system strategy numWorkers
      fun act => act.Bounded ∧ act.SplitsRunning).Reachable s) : Sound s := by
  refine reached.invariant ?_ ?_
  · rintro s rfl
    exact init_sound
  · rintro s s' - sound ⟨act, ⟨bounded, running⟩, stepped⟩
    exact (step_sound sound bounded running).value stepped

/-- In every run in which `RT_pop` splits no loop task it has just popped: every
loop task returns the fold over the range it was created with, `REDUCE` only ever
sees parts cut off the task that calls it, and the future of a new part goes to
the list of the task that was split. -/
theorem reduce_sees_every_part (strategy : SplitStrategy) (numWorkers : ℕ) {s : State α}
    (reached : (system strategy numWorkers
      fun act => act.Bounded ∧ act.SplitsRunning).Reachable s) :
    (∀ k < s.next, ∀ v, (s.pieces k).value = some v →
      v = ∑ i ∈ Finset.Ico (s.pieces k).lo (s.pieces k).hi, (s.pieces k).body i) ∧
    (∀ k < s.next, ∀ f ∈ (s.pieces k).parts, (s.pieces f).parent = some k) ∧
    (∀ ID futures, .other futures ∈ (s.workers ID).stack → futures = []) ∧
    (∀ ID k rest pending s', (s.workers ID).stack = .piece k :: rest →
      step strategy numWorkers s (.splitCurrent ID pending) = .ok s' →
      (s'.pieces k).futures = s.next :: (s.pieces k).futures) ∧
    ∀ act : Act α, act.Bounded → act.SplitsRunning → ∀ which,
      step strategy numWorkers s act ≠ .error (.fault which) := by
  have sound := reachable_sound reached
  refine ⟨?_, ?_, sound.others, ?_, ?_⟩
  · intro k inside v returned
    exact (sound.pieces k inside).value v returned
  · exact fun k inside f mem => ((sound.pieces k inside).parts f mem).2
  · intro ID k rest pending s' top split
    simp only [step, top] at split
    exact ((splitCurrent_sound sound top).value split).2
  · exact fun act bounded running which faulted =>
      (step_sound sound bounded running).tolerates faulted

/-! ## Schedules -/

def after (strategy : SplitStrategy) (numWorkers : ℕ) (acts : List (Act α)) : State α :=
  System.follow (fun act s => step strategy numWorkers s act) acts .init

theorem after_reachable {strategy : SplitStrategy} {numWorkers : ℕ} {allowed : Act α → Prop}
    {acts : List (Act α)} (all : ∀ act ∈ acts, allowed act) :
    (system strategy numWorkers allowed).Reachable (after strategy numWorkers acts) :=
  (System.reachable_of_init rfl).follow fun act member _ _ stepped => ⟨act, all act member, stepped⟩

/-- A loop task of two iterations, from the start of its loop to the end. -/
def twoIterations (ID : ℕ) : List (Act ℤ) :=
  [.loop ID .iterate, .loop ID .advance, .loop ID .iterate, .loop ID .advance, .loop ID .leave]

/-- The sum of 0, 1, 2, 3: the master runs the loop, is split in the middle, and
another worker runs the second half. -/
def sharedSum : List (Act ℤ) :=
  [.spawn 0 0 4 id, .take 0 0, .run 0, .loop 0 .enter, .splitCurrent 0 0,
    .take 1 1, .run 1, .loop 1 .enter] ++ twoIterations 1 ++ [.finish 1] ++
  twoIterations 0 ++ [.reduce 0, .collect 0, .finish 0]

theorem four_bounds : Bounds 0 4 := ⟨by decide, by decide, by decide, by decide⟩

theorem sharedSum_complete :
    ((after .half 2 sharedSum).pieces 0).value = some 6 ∧
      (6 : ℤ) = ∑ i ∈ Finset.Ico ((after .half 2 sharedSum).pieces 0).lo
        ((after .half 2 sharedSum).pieces 0).hi, ((after .half 2 sharedSum).pieces 0).body i :=
  have value : ((after .half 2 sharedSum).pieces 0).value = some 6 := by decide +kernel
  ⟨value, (reduce_sees_every_part .half 2 (after_reachable (by
    simp [sharedSum, twoIterations, Act.Bounded, Act.SplitsRunning, four_bounds]))).1 0
      (by decide +kernel) 6 value⟩

/-! ## The runtime's own lists -/

section RuntimeLists

variable {cfg : Runtime.Config} {o : Runtime.Oracle} {n : Runtime.Node} {t : Runtime.Task}
  {req : Runtime.StealRequest} {f : ℕ}

/-- `split_loop` puts the new future into the list of the current task. -/
theorem splitLoop_registers (future : t.future = some f) :
    Ensures (fun _ => True) (Runtime.splitLoop cfg o ID t req n) fun (_, n') =>
      n'.self.frames =
          (n.self.setCurrentFutures (n.net.nextFuture :: n.self.currentFutures)).frames ∧
        n'.self.currentFutures = n.net.nextFuture :: n.self.currentFutures := by
  simp only [Runtime.splitLoop, ensures_bind, ensures_check, implies_true, and_true]
  intro _
  refine Ensures.any.mono fun split _ => ?_
  simp only [Runtime.patchFuture, future, ensures_bind, ensures_pure]
  -- the task object may come from the freelist, which the lists do not depend on
  cases frames : n.self.frames with
  | nil =>
    cases free : n.self.freelist <;> by_cases master : ID = 0 <;>
      simp [Runtime.taskAlloc, free, Runtime.registerFuture, frames, master,
        Runtime.Worker.setCurrentFutures, Runtime.Worker.currentFutures]
  | cons frame rest =>
    cases free : n.self.freelist <;>
      simp [Runtime.taskAlloc, free, Runtime.registerFuture, frames,
        Runtime.Worker.setCurrentFutures, Runtime.Worker.currentFutures]

/-- `handle` splits the current task, so that the future goes to its list. -/
theorem handle_registers_with_task (current : n.self.currentTask = some t)
    (splits : t.canSplit = true) (empty : n.self.deque = []) (foreign : req.ID ≠ ID)
    (future : t.future = some f) :
    Ensures (fun _ => True) (Runtime.handle cfg o ID req n) fun (_, n') =>
      ∃ t', n'.self.currentTask = some t' ∧ t'.future = some f ∧
        t'.futures = n.net.nextFuture :: t.futures := by
  obtain ⟨frame, rest, frames, rfl⟩ : ∃ frame rest, n.self.frames = frame :: rest ∧
      frame.task = t := by
    cases frames : n.self.frames with
    | nil => simp [Runtime.Worker.currentTask, frames] at current
    | cons frame rest =>
      exact ⟨frame, rest, rfl, by simpa [Runtime.Worker.currentTask, frames] using current⟩
  simp only [Runtime.handle, empty, ne_eq, not_true_eq_false, if_false, current,
    Option.filter_some, splits, if_true, foreign, not_false_eq_true, ensures_bind]
  refine (splitLoop_registers future).mono ?_
  rintro ⟨split, n'⟩ ⟨listed, -⟩
  simp only [Runtime.Worker.setCurrentFutures, Runtime.Worker.currentFutures, frames] at listed
  simp [Runtime.Worker.shortenCurrent, Runtime.Worker.currentTask, listed, future]

/-- `RT_pop` splits the task it has popped: its list stays as it is, and the future
goes to the list of whatever task is current. -/
theorem popHandle_registers_elsewhere {site : Runtime.Site} (splits : t.canSplit = true)
    (empty : n.self.deque = []) (foreign : req.ID ≠ ID) (future : t.future = some f) :
    Ensures (fun _ => True) (Runtime.popHandle cfg o ID site (some t) req n) fun n' =>
      n'.self.currentFutures = n.net.nextFuture :: n.self.currentFutures ∧
        ∃ t', n'.self.pc.held = some t' ∧ t'.future = some f ∧ t'.futures = t.futures := by
  simp only [Runtime.popHandle, empty, if_true, Option.filter_some, splits, ne_eq, foreign,
    not_false_eq_true, ensures_bind]
  refine (splitLoop_registers future).mono ?_
  rintro ⟨split, n'⟩ ⟨-, listed⟩
  exact ⟨listed, _, rfl, future, rfl⟩

end RuntimeLists

/-- The sum again, but the task is split when it has been popped and not started. -/
def lostSum : List (Act ℤ) :=
  [.spawn 0 0 4 id, .take 0 0, .splitHeld 0 0, .run 0, .loop 0 .enter] ++ twoIterations 0 ++
    [.finish 0]

open Tasking.Runtime in
/-- The runtime gets there: the master creates the loop and awaits it, and in
between the other worker asks for work. -/
def poppedSchedule : List (ℕ × Choice) :=
  (0, .plain (.spawn (some (0, 4)) true)) :: runsOn 0 3 ++ runsOn 1 5 ++
    (0, .plain (.await (.own 0))) :: runsOn 0 5

open Tasking.Runtime in
/-- The part cut off is registered with the current task, here the root, and not with the loop
task that was popped: its `REDUCE` adds up 1 where the whole loop has 6.  A run of the runtime
model ends the same way. -/
theorem popped_part_is_lost :
    (system .half 2 Act.Bounded).Reachable (Reduction.after .half 2 lostSum) ∧
      ((Reduction.after .half 2 lostSum).pieces 0).value = some 1 ∧
      (∑ i ∈ Finset.Ico ((Reduction.after .half 2 lostSum).pieces 0).lo
        ((Reduction.after .half 2 lostSum).pieces 0).hi,
        ((Reduction.after .half 2 lostSum).pieces 0).body i) = 6 ∧
      ((Reduction.after .half 2 lostSum).workers 0).stack = [.other [1]] ∧
      ((Runtime.after (.makefile 2 two_pos) poppedSchedule).workers 0).rootFutures = [1] ∧
      ((Runtime.after (.makefile 2 two_pos) poppedSchedule).workers 0).pc.held.map Task.futures =
        some [] :=
  ⟨after_reachable (by simp [lostSum, twoIterations, Act.Bounded, four_bounds]),
    by decide +kernel, by decide +kernel, by decide +kernel, by decide +kernel, by decide +kernel⟩

end Tasking.Reduction
