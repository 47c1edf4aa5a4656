import Tasking.ForkJoin
import Tasking.Quiescence
import Tasking.WorkSteps

/-!
Programs on the runtime.

The runtime leaves open what a task does.  Here every task has code: a fork-join program with
`ASYNC`, loops, `FUTURE`, `AWAIT`, `POLL` and barriers, whose effects are collected in a log.
The code decides what a worker asks of the runtime, and the runtime decides everything else:
who runs which task, where loops are cut, and in which order the workers move.

`programs_refine`: whatever the runtime decides, the tasks are threads of the fork-join
program, and each step of a worker is a step of one of them, or of none.  So every `AWAIT`
returns what the task returns if it is run in place of `FUTURE`, and behind a barrier all
effects of the tasks have been had.

Left out are loops with futures, `REDUCE`, loops that run downward (`Bounds`), futures awaited
by a task that did not create them, and results of more than eight bytes, which a lazy future
has no room for (`finish`).
-/
namespace Tasking.Runtime
open Fallible Family Loops ForkJoin Custody Function

/-! ## Code -/

/-- The bounds of a loop that runs upward. -/
structure Bounds where
  lo : ℤ
  hi : ℤ
  upward : lo ≤ hi
  low : InLong lo
  /-- The last `i++, this->cur++` goes one past the end. -/
  high : InLong (hi + 1)
  width : InLong (hi - lo)

/-- The iterations from `lo` up to `hi`. -/
def iterations (lo hi : ℤ) : List ℤ := (List.range (hi - lo).toNat).map fun k : ℕ => (k : ℤ) + lo

instance : Iterated Bounds where
  points b := iterations b.lo b.hi

/-- What a task other than the root is there for: the call of a function, or a part of a loop.
-/
inductive Job (ε : Type) where
  | plain (code : Code Bounds ε Value)
  /-- The body of `ASYNC_FOR`, and the iteration that is being executed. -/
  | loop (body : ℤ → Program Bounds ε Value) (current : Option (Code Bounds ε Value))

structure Programmed (ε : Type) where
  state : State
  /-- The code of the root task, and of every other task by its identity. -/
  root : Code Bounds ε Value
  job : ℕ → Job ε
  /-- What `FUTURE` was called with. -/
  source : ℕ → Program Bounds ε Value
  log : List ε

section Programs

variable {ε : Type}

def Job.code : Job ε → Option (Code Bounds ε Value)
  | .plain code => some code
  | .loop _ current => current

def Job.resume (code : Code Bounds ε Value) : Job ε → Job ε
  | .plain _ => .plain code
  | .loop body _ => .loop body (some code)

/-- What `task_dup` makes of a task that has not started or is between two iterations: the copy
starts the function of the task from the beginning. -/
def Job.dup : Job ε → Job ε
  | .plain code => .plain code
  | .loop body _ => .loop body none

namespace Programmed

/-- The code worker `w` is executing. -/
def code (d : Programmed ε) (w : ℕ) : Option (Code Bounds ε Value) :=
  match (d.state.workers w).currentTask with
  | some t => (d.job t.id).code
  | none => some d.root

/-- The code of the current task goes on. -/
def resume (d : Programmed ε) (w : ℕ) (code : Code Bounds ε Value) : Programmed ε :=
  match (d.state.workers w).currentTask with
  | some t => { d with job := update d.job t.id ((d.job t.id).resume code) }
  | none => { d with root := code }

/-- The job of the next task that is created. -/
def create (d : Programmed ε) (job : Job ε) : Programmed ε :=
  { d with job := update d.job d.state.net.nextId job }

/-- A step of the runtime. -/
def call (cfg : Config) (w : ℕ) (o : Oracle) (act : UserAct) (d : Programmed ε) :
    Checked State := do
  let n ← wstep cfg w ⟨act, o, false⟩ (d.state.node w)
  return d.state.put w n

/-- The function of a task returned, or the body of its loop. -/
def finish (cfg : Config) (w : ℕ) (o : Oracle) (value : Value) (d : Programmed ε) :
    Checked (Programmed ε) :=
  match (d.state.workers w).currentTask with
  | none => .error .disabled
  | some t =>
    match d.job t.id with
    | .plain _ => do
      let s ← d.call cfg w o (.finish value)
      return { d with state := s }
    | .loop body _ => do
      let s ← d.call cfg w o .iterate
      return { d with state := s, job := update d.job t.id (.loop body none) }

/-- What code asks for.  Each statement is one call of the runtime, or none. -/
def request (cfg : Config) (w : ℕ) (o : Oracle) (code : Code Bounds ε Value) (d : Programmed ε) :
    Checked (Programmed ε) :=
  let fs := code.futures
  match code.program with
  | .ret value => d.finish cfg w o value
  | .emit e rest => return { d.resume w ⟨rest, fs⟩ with log := d.log ++ [e] }
  | .async child rest => do
    let s ← d.call cfg w o (.spawn none false)
    return { (d.resume w ⟨rest, fs⟩).create (.plain ⟨child, []⟩) with state := s }
  | .each b body rest => do
    let s ← d.call cfg w o (.spawn (some (b.lo, b.hi)) false)
    return { (d.resume w ⟨rest, fs⟩).create (.loop body none) with state := s }
  | .future child rest => do
    let f := d.state.net.nextFuture
    let s ← d.call cfg w o (.spawn none true)
    return { (d.resume w ⟨rest fs.length, fs ++ [f]⟩).create (.plain ⟨child, []⟩) with
      state := s, source := update d.source f child }
  | .await k _ =>
    match fs[k]? with
    | none => .error .disabled
    | some f => do
      let s ← d.call cfg w o (.await (.own f))
      return { d with state := s }
  | .skip rest => do
    let s ← d.call cfg w o .poll
    return { d.resume w ⟨rest, fs⟩ with state := s }
  | .join rest => do
    let s ← d.call cfg w o .barrier
    -- The master is in `RT_barrier` now; for the others the call has returned.
    if w = 0 then return { d with state := s } else return { d.resume w ⟨rest, fs⟩ with state := s }

/-- A loop task at the start of its function, or at the test of `ASYNC_FOR`. -/
def iterate (cfg : Config) (w : ℕ) (o : Oracle) (t : Task) (body : ℤ → Program Bounds ε Value)
    (d : Programmed ε) : Checked (Programmed ε) :=
  match t.iter with
  | none => do
    let s ← d.call cfg w o .asyncFor
    return { d with state := s }
  | some i =>
    if i < t.range.stop then
      return { d with job := update d.job t.id (.loop body (some ⟨body i, []⟩)) }
    else do
      let s ← d.call cfg w o (.finish [])
      return { d with state := s }

def userStep (cfg : Config) (w : ℕ) (o : Oracle) (d : Programmed ε) : Checked (Programmed ε) :=
  match (d.state.workers w).currentTask with
  | none => d.request cfg w o d.root
  | some t =>
    match d.job t.id with
    | .plain code | .loop _ (some code) => d.request cfg w o code
    | .loop body none => d.iterate cfg w o t body

/-- `split_loop` has made a copy of a task, which has the same body to run. -/
def copied (d : Programmed ε) (w : ℕ) (s : State) : Programmed ε :=
  match (d.state.workers w).splits with
  | some t => if s.net.nextId = d.state.net.nextId then d else d.create (d.job t.id).dup
  | none => d

/-- The call in which the code of the current task is suspended has returned. -/
def returned (d : Programmed ε) (w : ℕ) (s : State) : Programmed ε :=
  match (d.state.workers w).pc, (s.workers w).pc, d.code w with
  | .forceReady (.own f) _, .user, some ⟨.await _ rest, fs⟩ =>
    match (s.net.futures f).result with
    | some value => d.resume w ⟨rest value, fs⟩
    | none => d
  | .barrierExit, .user, some ⟨.join rest, fs⟩ => d.resume w ⟨rest, fs⟩
  | _, _, _ => d

def move (cfg : Config) (w : ℕ) (o : Oracle) (d : Programmed ε) : Checked (Programmed ε) :=
  if (d.state.workers w).pc = .user then d.userStep cfg w o
  else do
    let s ← d.call cfg w o .poll
    return { (d.copied w s).returned w s with state := s }

/-- The master is about to execute the main program. -/
def init (cfg : Config) (main : Program Bounds ε Value) : Programmed ε where
  state := .init cfg
  root := ⟨main, []⟩
  job _ := .plain ⟨main, []⟩
  source _ := main
  log := []

end Programmed

/-- Any interleaving of the workers' steps. -/
def programmed (cfg : Config) (main : Program Bounds ε Value) :
    Transition.System (Programmed ε) where
  init d := d = .init cfg main
  step d d' := ∃ w < cfg.numWorkers, ∃ o, d.move cfg w o = .ok d'

/-! ## Tasks as threads -/

/-- The iterations a loop task has left, those of its current iteration apart. -/
def Piece.left (p : Piece) (current : Option (Code Bounds ε Value)) : Multiset ℤ :=
  match p.iter, current with
  | some i, none => iterations i p.range.stop
  | _, _ => iterations p.range.cur p.range.stop

def Job.thread (p : Piece) : Job ε → Thread Bounds ε Value
  | .plain code => .plain code p.future
  | .loop body current => .loop body (p.left current) current

def threadsOf (job : ℕ → Job ε) (pieces : Multiset Piece) : Multiset (Thread Bounds ε Value) :=
  pieces.map fun p => (job p.id).thread p

/-- The state of the fork-join program. -/
def Programmed.pool (cfg : Config) (d : Programmed ε) : Pool Bounds ε Value where
  root := d.root
  threads := threadsOf d.job (d.state.pieces cfg)
  source := d.source
  resolved f := (d.state.net.futures f).passed
  next := d.state.net.nextFuture
  log := d.log

/-! ## What holds between two steps -/

/-- The iteration variable and the bounds of a loop task. -/
structure LoopOk (p : Piece) (current : Option (Code Bounds ε Value)) : Prop where
  start_fits : InLong p.range.start
  stop_fits : InLong (p.range.stop + 1)
  width_fits : InLong (p.range.stop - p.range.start)
  before : p.iter = none →
    current = none ∧ p.range.cur = p.range.start ∧ p.range.start ≤ p.range.stop
  inside : ∀ i, p.iter = some i → p.range.cur = i + 1 ∧ p.range.start ≤ i ∧ i ≤ p.range.stop ∧
    (current.isSome → i < p.range.stop)

/-- A task is what its job says. -/
def Job.Fits (p : Piece) : Job ε → Prop
  | .plain _ => p.splittable = false
  | .loop _ current => p.splittable = true ∧ p.future = none ∧ LoopOk p current

/-- Code suspended in a call has asked for it. -/
def Suspended (code : Option (Code Bounds ε Value)) : Option Site → Prop
  | some (.force (.own f)) => ∃ k rest fs, code = some ⟨.await k rest, fs⟩ ∧ fs[k]? = some f
  | some (.force .foreign) => False
  | some .barrier => ∃ rest fs, code = some ⟨.join rest, fs⟩
  | some .schedule | none => True

/-- The same for all code on a stack, the innermost first. -/
def Chain (job : ℕ → Job ε) (root : Option (Code Bounds ε Value)) :
    Option Site → List (ℕ × Option Site) → Prop
  | site, [] => Suspended root site
  | site, (id, below) :: rest => Suspended (job id).code site ∧ Chain job root below rest

def Programmed.bottom (d : Programmed ε) (w : ℕ) : Option (Code Bounds ε Value) :=
  if w = 0 then some d.root else none

structure Programmed.Ok (cfg : Config) (d : Programmed ε) : Prop where
  refines : Refines cfg d.state
  settles : Settles cfg d.state
  fits : ∀ p ∈ d.state.pieces cfg, (d.job p.id).Fits p
  chain : ∀ w < cfg.numWorkers, Chain d.job (d.bottom w) (d.state.workers w).stack.awaits
    (d.state.workers w).stack.below

end Programs

end Tasking.Runtime
