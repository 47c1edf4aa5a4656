import Mathlib.Algebra.BigOperators.Group.Multiset.Basic
import Mathlib.Algebra.Order.Group.Multiset
import Mathlib.Data.Multiset.Basic
import Mathlib.Logic.Function.Basic
import Mathlib.Tactic.Abel
import Tasking.Transition

/-!
Fork-join programs, and what they compute.

The code of a task is a tree of requests: have an effect, start a task, start a loop, start a
task with a future, await a future.  `Program.run` evaluates such a tree the way a compiler
would that knows nothing of parallelism: a task is run where it is started.  `Pool` is the
parallel meaning: threads in any number, each at some point of its code, and any of them may
take the next step.

`Sound.step` ties the two together.  What a pool still has to do, evaluated sequentially, does
not change while the pool works, so a pool that is through has done what the sequential
program does.  No order of the steps enters the argument.
-/
namespace Tasking.ForkJoin
open Function

/-! ## Programs -/

/-- The code of a task.  The loops are named by `ρ`; a task has effects in `ε` and a result in
`υ`.  The code knows a future by its position among those the task has created. -/
inductive Program (ρ ε υ : Type) where
  | ret (value : υ)
  | emit (e : ε) (rest : Program ρ ε υ)
  | async (child rest : Program ρ ε υ)
  /-- A task for a loop. -/
  | each (loop : ρ) (body : ℤ → Program ρ ε υ) (rest : Program ρ ε υ)
  | future (child : Program ρ ε υ) (rest : ℕ → Program ρ ε υ)
  | await (k : ℕ) (rest : υ → Program ρ ε υ)
  /-- A request without a meaning. -/
  | skip (rest : Program ρ ε υ)
  /-- Wait for all tasks. -/
  | join (rest : Program ρ ε υ)

/-- What the name of a loop stands for. -/
class Iterated (ρ : Type) where
  points : ρ → List ℤ

/-- What a program comes to: its result, the results of the futures it created, and its effects
with those of its tasks, in order. -/
structure Outcome (ε υ : Type) where
  value : υ
  env : List υ
  events : List ε
  deriving DecidableEq

def Outcome.after {ε υ : Type} (first : List ε) (o : Outcome ε υ) : Outcome ε υ :=
  { o with events := first ++ o.events }

section Programs

variable {ρ ε υ : Type} (first second : List ε) (o : Outcome ε υ)

@[simp] theorem Outcome.after_value : (o.after first).value = o.value := rfl

@[simp] theorem Outcome.after_env : (o.after first).env = o.env := rfl

@[simp] theorem Outcome.after_events : (o.after first).events = first ++ o.events := rfl

@[simp] theorem Outcome.after_nil : (Outcome.after [] : Outcome ε υ → Outcome ε υ) = id := rfl

@[simp] theorem Outcome.after_after : (o.after second).after first = o.after (first ++ second) := by
  simp [Outcome.after]

namespace Program

/-- The sequential meaning.  A program that awaits a future it has not created has none. -/
def run [Iterated ρ] : Program ρ ε υ → List υ → Option (Outcome ε υ)
  | ret v, env => some ⟨v, env, []⟩
  | emit e rest, env => (rest.run env).map (.after [e])
  | async child rest, env =>
    (child.run []).bind fun o => (rest.run env).map (.after o.events)
  | each loop body rest, env =>
    ((Iterated.points loop).mapM fun i => (body i).run []).bind fun os =>
      (rest.run env).map (.after (os.flatMap Outcome.events))
  | future child rest, env =>
    (child.run []).bind fun o => ((rest env.length).run (env ++ [o.value])).map (.after o.events)
  | await k rest, env => env[k]?.bind fun v => (rest v).run env
  | skip rest, env => rest.run env
  | join rest, env => rest.run env

/-- A call: the caller goes on with the result. -/
def bind : Program ρ ε υ → (υ → Program ρ ε υ) → Program ρ ε υ
  | ret v, k => k v
  | emit e rest, k => emit e (rest.bind k)
  | async child rest, k => async child (rest.bind k)
  | each loop body rest, k => each loop body (rest.bind k)
  | future child rest, k => future child fun x => (rest x).bind k
  | await x rest, k => await x fun v => (rest v).bind k
  | skip rest, k => skip (rest.bind k)
  | join rest, k => join (rest.bind k)

def result : Program ρ ε υ → Option υ
  | ret v => some v
  | _ => none

theorem result_eq_some {p : Program ρ ε υ} {v : υ} (through : p.result = some v) : p = ret v := by
  cases p <;> simp_all [result]

/-- A program with a barrier at its end. -/
def closed (main : Program ρ ε υ) : Program ρ ε υ := main.bind fun v => join (ret v)

/-- A call has the effects of the callee and then those of the rest. -/
theorem run_bind [Iterated ρ] (p : Program ρ ε υ) (k : υ → Program ρ ε υ) (env : List υ) :
    (p.bind k).run env =
      (p.run env).bind fun o => ((k o.value).run o.env).map (.after o.events) := by
  induction p generalizing env with
  | ret v => simp [bind, run]
  | emit e rest ih => simp [bind, run, ih, Option.map_bind, Option.bind_map, comp_def]
  | async child rest _ ih | each loop body rest _ ih | future child rest _ ih =>
    simp [bind, run, ih, Option.map_bind, Option.bind_assoc, Option.bind_map, comp_def]
  | await x rest ih => simp only [bind, run, ih, Option.bind_assoc]
  | skip rest ih | join rest ih => simp only [bind, run, ih]

/-- Wherever the program is called it comes to `v`, without effects. -/
def Yields [Iterated ρ] (p : Program ρ ε υ) (v : υ) : Prop :=
  ∀ env, ∃ more, p.run env = some ⟨v, env ++ more, []⟩

theorem yields_ret [Iterated ρ] (v : υ) : (ret v : Program ρ ε υ).Yields v :=
  fun env => ⟨[], by rw [List.append_nil, run]⟩

theorem Yields.run_bind [Iterated ρ] {p : Program ρ ε υ} {v : υ} (yields : p.Yields v)
    (k : υ → Program ρ ε υ) (env : List υ) :
    ∃ more, (p.bind k).run env = (k v).run (env ++ more) := by
  obtain ⟨more, ran⟩ := yields env
  exact ⟨more, by simp [Program.run_bind, ran]⟩

theorem Yields.run_future [Iterated ρ] {child : Program ρ ε υ} {v : υ} (yields : child.Yields v)
    (rest : ℕ → Program ρ ε υ) (env : List υ) :
    (future child rest).run env = (rest env.length).run (env ++ [v]) := by
  obtain ⟨more, ran⟩ := yields []
  simp [run, ran]

theorem run_closed [Iterated ρ] (main : Program ρ ε υ) (env : List υ) :
    main.closed.run env = main.run env := by
  rw [closed, run_bind]
  cases main.run env with
  | none => rfl
  | some o => simp [run, Outcome.after]

end Program

/-! ## Threads -/

/-- Code being run, with the names of the futures it has created. -/
structure Code (ρ ε υ : Type) where
  program : Program ρ ε υ
  futures : List ℕ

/-- A task that was started.  One that runs a loop has some of the iterations left, in no
particular order, and may be in the middle of another. -/
inductive Thread (ρ ε υ : Type) where
  | plain (code : Code ρ ε υ) (future : Option ℕ)
  | loop (body : ℤ → Program ρ ε υ) (left : Multiset ℤ) (current : Option (Code ρ ε υ))

structure Pool (ρ ε υ : Type) where
  /-- The main program. -/
  root : Code ρ ε υ
  threads : Multiset (Thread ρ ε υ)
  /-- What each future was created for, and its result once there is one. -/
  source : ℕ → Program ρ ε υ
  resolved : ℕ → Option υ
  next : ℕ
  log : List ε

/-- One of the threads replaces its code. -/
inductive Continues (c c' : Code ρ ε υ) : Multiset (Thread ρ ε υ) → Multiset (Thread ρ ε υ) → Prop
  | plain {future : Option ℕ} {rest : Multiset (Thread ρ ε υ)} :
      Continues c c' (.plain c future ::ₘ rest) (.plain c' future ::ₘ rest)
  | loop {body : ℤ → Program ρ ε υ} {left : Multiset ℤ} {rest : Multiset (Thread ρ ε υ)} :
      Continues c c' (.loop body left (some c) ::ₘ rest) (.loop body left (some c') ::ₘ rest)

/-- One of the threads or the main program replaces its code. -/
inductive Resumes (c c' : Code ρ ε υ) (p : Pool ρ ε υ) : Pool ρ ε υ → Prop
  | root (here : p.root = c) : Resumes c c' p { p with root := c' }
  | thread {threads : Multiset (Thread ρ ε υ)} (goes : Continues c c' p.threads threads) :
      Resumes c c' p { p with threads := threads }

def Pool.start (p : Pool ρ ε υ) (t : Thread ρ ε υ) : Pool ρ ε υ :=
  { p with threads := t ::ₘ p.threads }

/-- A new future, for a task that is started with it. -/
def Pool.promise (p : Pool ρ ε υ) (child : Program ρ ε υ) : Pool ρ ε υ :=
  { p with
    threads := .plain ⟨child, []⟩ (some p.next) ::ₘ p.threads
    source := update p.source p.next child
    resolved := update p.resolved p.next none
    next := p.next + 1 }

/-- The parallel meaning: any thread takes a step. -/
inductive Step [Iterated ρ] (p : Pool ρ ε υ) : Pool ρ ε υ → Prop
  | emit {e : ε} {rest : Program ρ ε υ} {fs : List ℕ} {p' : Pool ρ ε υ}
      (goes : Resumes ⟨.emit e rest, fs⟩ ⟨rest, fs⟩ p p') : Step p { p' with log := p.log ++ [e] }
  | async {child rest : Program ρ ε υ} {fs : List ℕ} {p' : Pool ρ ε υ}
      (goes : Resumes ⟨.async child rest, fs⟩ ⟨rest, fs⟩ p p') :
      Step p (p'.start (.plain ⟨child, []⟩ none))
  | each {loop : ρ} {body : ℤ → Program ρ ε υ} {rest : Program ρ ε υ} {fs : List ℕ}
      {p' : Pool ρ ε υ} (goes : Resumes ⟨.each loop body rest, fs⟩ ⟨rest, fs⟩ p p') :
      Step p (p'.start (.loop body (Iterated.points loop) none))
  | future {child : Program ρ ε υ} {rest : ℕ → Program ρ ε υ} {fs : List ℕ} {p' : Pool ρ ε υ}
      (goes : Resumes ⟨.future child rest, fs⟩ ⟨rest fs.length, fs ++ [p.next]⟩ p p') :
      Step p (p'.promise child)
  | await {k f : ℕ} {v : υ} {rest : υ → Program ρ ε υ} {fs : List ℕ} {p' : Pool ρ ε υ}
      (known : fs[k]? = some f) (ready : p.resolved f = some v)
      (goes : Resumes ⟨.await k rest, fs⟩ ⟨rest v, fs⟩ p p') : Step p p'
  | skip {rest : Program ρ ε υ} {fs : List ℕ} {p' : Pool ρ ε υ}
      (goes : Resumes ⟨.skip rest, fs⟩ ⟨rest, fs⟩ p p') : Step p p'
  /-- The main program waits for all threads. -/
  | join {rest : Program ρ ε υ} {fs : List ℕ} (here : p.root = ⟨.join rest, fs⟩)
      (through : p.threads = 0) : Step p { p with root := ⟨rest, fs⟩ }
  /-- In a task the same request has no meaning. -/
  | pass {rest : Program ρ ε υ} {fs : List ℕ} {threads : Multiset (Thread ρ ε υ)}
      (goes : Continues ⟨.join rest, fs⟩ ⟨rest, fs⟩ p.threads threads) :
      Step p { p with threads := threads }
  | begins {body : ℤ → Program ρ ε υ} {i : ℤ} {left : Multiset ℤ} {rest : Multiset (Thread ρ ε υ)}
      (here : p.threads = .loop body (i ::ₘ left) none ::ₘ rest) :
      Step p { p with threads := .loop body left (some ⟨body i, []⟩) ::ₘ rest }
  | ends {body : ℤ → Program ρ ε υ} {left : Multiset ℤ} {v : υ} {fs : List ℕ}
      {rest : Multiset (Thread ρ ε υ)}
      (here : p.threads = .loop body left (some ⟨.ret v, fs⟩) ::ₘ rest) :
      Step p { p with threads := .loop body left none ::ₘ rest }
  | splits {body : ℤ → Program ρ ε υ} {lower upper : Multiset ℤ} {current : Option (Code ρ ε υ)}
      {rest : Multiset (Thread ρ ε υ)}
      (here : p.threads = .loop body (lower + upper) current ::ₘ rest) :
      Step p { p with threads := .loop body lower current ::ₘ .loop body upper none ::ₘ rest }
  | closes {body : ℤ → Program ρ ε υ} {rest : Multiset (Thread ρ ε υ)}
      (here : p.threads = .loop body 0 none ::ₘ rest) : Step p { p with threads := rest }
  | returns {v : υ} {fs : List ℕ} {rest : Multiset (Thread ρ ε υ)}
      (here : p.threads = .plain ⟨.ret v, fs⟩ none ::ₘ rest) : Step p { p with threads := rest }
  | delivers {v : υ} {f : ℕ} {fs : List ℕ} {rest : Multiset (Thread ρ ε υ)}
      (here : p.threads = .plain ⟨.ret v, fs⟩ (some f) ::ₘ rest) :
      Step p { p with threads := rest, resolved := update p.resolved f (some v) }

def Pool.init (main : Program ρ ε υ) : Pool ρ ε υ where
  root := ⟨main, []⟩
  threads := 0
  source _ := main
  resolved _ := none
  next := 0
  log := []

def parallel [Iterated ρ] (main : Program ρ ε υ) : Transition.System (Pool ρ ε υ) where
  init p := p = .init main
  step := Step

end Programs

/-! ## What is still to be done -/

section Denotation

variable {ρ ε υ : Type} [Iterated ρ] {p p' : Pool ρ ε υ} {c c' : Code ρ ε υ} {t : Thread ρ ε υ}
  {main : Program ρ ε υ} {v : υ} {child : Program ρ ε υ}

/-- The result a future is going to have. -/
def Pool.worth (p : Pool ρ ε υ) (f : ℕ) : Option υ := ((p.source f).run []).map Outcome.value

/-- What code that is being run comes to. -/
def Code.outcome (p : Pool ρ ε υ) (c : Code ρ ε υ) : Option (Outcome ε υ) :=
  (c.futures.mapM p.worth).bind c.program.run

def effects (o : Option (Outcome ε υ)) : Multiset ε := (o.map Outcome.events).getD []

def Thread.effects (p : Pool ρ ε υ) : Thread ρ ε υ → Multiset ε
  | .plain code _ => ForkJoin.effects (code.outcome p)
  | .loop body left current =>
    (left.map fun i => ForkJoin.effects ((body i).run [])).sum +
      (current.map fun code => ForkJoin.effects (code.outcome p)).getD 0

/-- All effects, those that were had and those to come. -/
def Pool.effects (p : Pool ρ ε υ) : Multiset ε :=
  p.log + ForkJoin.effects (p.root.outcome p) + (p.threads.map (Thread.effects p)).sum

/-- The code knows its futures, and comes to a result. -/
structure Code.Good (p : Pool ρ ε υ) (c : Code ρ ε υ) (v : υ) : Prop where
  known : ∀ f ∈ c.futures, f < p.next
  value : (c.outcome p).map Outcome.value = some v

/-- The task comes to the result its future is going to have. -/
def Thread.Good (p : Pool ρ ε υ) : Thread ρ ε υ → Prop
  | .plain code future => ∃ v, code.Good p v ∧ ∀ f ∈ future, f < p.next ∧ p.worth f = some v
  | .loop body left current => (∀ i ∈ left, ((body i).run []).isSome) ∧
      ∀ code ∈ current, ∃ v, code.Good p v

/-- The pool is on its way to the result and the effects of the sequential program. -/
structure Sound (o : Outcome ε υ) (p : Pool ρ ε υ) : Prop where
  root : p.root.Good p o.value
  threads : ∀ t ∈ p.threads, t.Good p
  resolved : ∀ f v, p.resolved f = some v → f < p.next ∧ p.worth f = some v
  effects : p.effects = o.events

/-! ### Lists of results -/

theorem mapM_congr {α β : Type} {f g : α → Option β} {l : List α} (same : ∀ x ∈ l, f x = g x) :
    l.mapM f = l.mapM g := by
  induction l with
  | nil => rfl
  | cons x l ih =>
    rw [List.mapM_cons, List.mapM_cons, same x List.mem_cons_self,
      ih fun y member => same y (List.mem_cons_of_mem x member)]

theorem mapM_length {α β : Type} {f : α → Option β} {l : List α} {ys : List β}
    (all : l.mapM f = some ys) : ys.length = l.length := by
  induction l generalizing ys with
  | nil =>
    obtain rfl : [] = ys := by simpa using all
    rfl
  | cons x l ih =>
    simp only [List.mapM_cons, Option.bind_eq_bind, Option.bind_eq_some_iff, Option.pure_def,
      Option.some.injEq] at all
    obtain ⟨y, -, ys, tail, rfl⟩ := all
    rw [List.length_cons, List.length_cons, ih tail]

theorem mapM_getElem? {α β : Type} {f : α → Option β} {l : List α} {ys : List β}
    (all : l.mapM f = some ys) (k : ℕ) : ys[k]? = l[k]?.bind f := by
  induction l generalizing ys k with
  | nil =>
    obtain rfl : [] = ys := by simpa using all
    simp
  | cons x l ih =>
    simp only [List.mapM_cons, Option.bind_eq_bind, Option.bind_eq_some_iff, Option.pure_def,
      Option.some.injEq] at all
    obtain ⟨y, head, ys, tail, rfl⟩ := all
    cases k with
    | zero => simp [head]
    | succ k => simpa using ih tail k

/-- If all iterations come to something, so does each, and the effects are those of each. -/
theorem mapM_effects {α : Type} {f : α → Option (Outcome ε υ)} {l : List α}
    {os : List (Outcome ε υ)} (all : l.mapM f = some os) :
    (∀ x ∈ l, (f x).isSome) ∧
      (os.flatMap Outcome.events : Multiset ε) =
        ((l : Multiset α).map fun x => effects (f x)).sum := by
  induction l generalizing os with
  | nil =>
    obtain rfl : [] = os := by simpa using all
    simp
  | cons x l ih =>
    simp only [List.mapM_cons, Option.bind_eq_bind, Option.bind_eq_some_iff, Option.pure_def,
      Option.some.injEq] at all
    obtain ⟨o, head, os, tail, rfl⟩ := all
    obtain ⟨each, sum⟩ := ih tail
    refine ⟨?_, ?_⟩
    · simpa [head] using each
    · rw [← Multiset.cons_coe, Multiset.map_cons, Multiset.sum_cons, ← sum, List.flatMap_cons,
        ← Multiset.coe_add, head]
      rfl

/-! ### Frame rules -/

/-- Code sees the pool through its own futures. -/
theorem Code.outcome_congr (same : ∀ f ∈ c.futures, p'.worth f = p.worth f) :
    c.outcome p' = c.outcome p := by
  rw [Code.outcome, Code.outcome, mapM_congr same]

theorem Code.Good.congr (good : c.Good p v) (next : p.next ≤ p'.next)
    (same : ∀ f < p.next, p'.worth f = p.worth f) : c.Good p' v := by
  refine ⟨fun f member => (good.known f member).trans_le next, ?_⟩
  rw [Code.outcome_congr fun f member => same f (good.known f member)]
  exact good.value

def Thread.codes : Thread ρ ε υ → List (Code ρ ε υ)
  | .plain code _ => [code]
  | .loop _ _ current => current.toList

theorem Thread.Good.known (good : t.Good p) :
    ∀ code ∈ t.codes, ∀ f ∈ code.futures, f < p.next := by
  cases t with
  | plain code future =>
    obtain ⟨v, good, -⟩ := good
    simpa [codes] using good.known
  | loop body left current =>
    intro code member
    obtain ⟨v, good⟩ := good.2 code (by simpa [codes] using member)
    exact good.known

theorem Thread.effects_congr (good : t.Good p) (same : ∀ f < p.next, p'.worth f = p.worth f) :
    t.effects p' = t.effects p := by
  have each (code : Code ρ ε υ) (member : code ∈ t.codes) : code.outcome p' = code.outcome p :=
    Code.outcome_congr fun f known => same f (good.known code member f known)
  cases t with
  | plain code future => rw [effects, effects, each code List.mem_cons_self]
  | loop body left current =>
    cases current with
    | none => rfl
    | some code => simp only [effects, Option.map_some, each code List.mem_cons_self]

theorem Thread.Good.congr (good : t.Good p) (next : p.next ≤ p'.next)
    (same : ∀ f < p.next, p'.worth f = p.worth f) : t.Good p' := by
  cases t with
  | plain code future =>
    obtain ⟨v, good, worth⟩ := good
    refine ⟨v, good.congr next same, fun f member => ?_⟩
    obtain ⟨known, value⟩ := worth f member
    exact ⟨known.trans_le next, (same f known).trans value⟩
  | loop body left current =>
    refine ⟨good.1, fun code member => ?_⟩
    obtain ⟨v, good⟩ := good.2 code member
    exact ⟨v, good.congr next same⟩

/-- The pools agree on what there is to know about futures. -/
structure Alike (p p' : Pool ρ ε υ) : Prop where
  source : p'.source = p.source
  next : p'.next = p.next

theorem Alike.worth (alike : Alike p p') : p'.worth = p.worth := by
  funext f
  rw [Pool.worth, Pool.worth, alike.source]

theorem Alike.outcome (alike : Alike p p') (c : Code ρ ε υ) : c.outcome p' = c.outcome p := by
  rw [Code.outcome, Code.outcome, alike.worth]

theorem Alike.good (alike : Alike p p') (good : t.Good p) : t.Good p' :=
  good.congr alike.next.ge fun f _ => congrFun alike.worth f

theorem Alike.codeGood (alike : Alike p p') (good : c.Good p v) : c.Good p' v :=
  good.congr alike.next.ge fun f _ => congrFun alike.worth f

theorem Alike.effects (alike : Alike p p') : Thread.effects p' = Thread.effects p := by
  funext t
  cases t with
  | plain code future => rw [Thread.effects, Thread.effects, alike.outcome]
  | loop body left current => simp only [Thread.effects, alike.outcome]

/-! ### Steps of code -/

theorem Code.good_iff : c.Good p v ↔ (∀ f ∈ c.futures, f < p.next) ∧
    ∃ vs o, c.futures.mapM p.worth = some vs ∧ c.program.run vs = some o ∧ o.value = v := by
  constructor
  · rintro ⟨known, value⟩
    obtain ⟨o, ran, same⟩ := Option.map_eq_some_iff.mp value
    obtain ⟨vs, env, ran⟩ := Option.bind_eq_some_iff.mp ran
    exact ⟨known, vs, o, env, ran, same⟩
  · rintro ⟨known, vs, o, env, ran, same⟩
    exact ⟨known, by rw [Code.outcome, env, Option.bind_some, ran, Option.map_some, same]⟩

theorem effects_code {vs : List υ} {o : Outcome ε υ} (env : c.futures.mapM p.worth = some vs)
    (ran : c.program.run vs = some o) : effects (c.outcome p) = o.events := by
  rw [Code.outcome, env, Option.bind_some, ran]
  rfl

/-- Code of a thread in `p` leads to code in `q`, new threads and an effect. -/
def Leads (p q : Pool ρ ε υ) (c c' : Code ρ ε υ) (extra : Multiset (Thread ρ ε υ))
    (logged : List ε) : Prop :=
  ∀ v, c.Good p v → c'.Good q v ∧ (∀ t ∈ extra, t.Good q) ∧ effects (c.outcome p) =
    logged + ((extra.map (Thread.effects q)).sum + effects (c'.outcome q))

/-- What the code has created so far stays; the rest comes to the same after some effects. -/
theorem leads_alike {q : Pool ρ ε υ} {program rest : Program ρ ε υ} {fs : List ℕ}
    {extra : Multiset (Thread ρ ε υ)} {logged : List ε} (alike : Alike p q)
    (comes : ∀ vs o, fs.mapM p.worth = some vs → program.run vs = some o →
      ∃ o', rest.run vs = some o' ∧ o'.value = o.value ∧ (∀ t ∈ extra, t.Good q) ∧
        (o.events : Multiset ε) = logged + ((extra.map (Thread.effects q)).sum + o'.events)) :
    Leads p q ⟨program, fs⟩ ⟨rest, fs⟩ extra logged := by
  intro v good
  obtain ⟨known, vs, o, env, ran, rfl⟩ := Code.good_iff.mp good
  obtain ⟨o', ran', value, threads, events⟩ := comes vs o env ran
  have env' : fs.mapM q.worth = some vs := by rw [alike.worth, env]
  refine ⟨Code.good_iff.mpr ⟨?_, vs, o', env', ran', value⟩, threads, ?_⟩
  · intro f member
    rw [alike.next]
    exact known f member
  · rw [effects_code env ran, effects_code env' ran', events]

section Frame

variable {q : Pool ρ ε υ} {extra : Multiset (Thread ρ ε υ)} {logged : List ε}

theorem effects_frame {threads : Multiset (Thread ρ ε υ)} (good : ∀ t ∈ threads, t.Good p)
    (same : ∀ f < p.next, q.worth f = p.worth f) :
    (threads.map (Thread.effects q)).sum = (threads.map (Thread.effects p)).sum :=
  congrArg _ (Multiset.map_congr rfl fun t member => Thread.effects_congr (good t member) same)

theorem Continues.leads {threads threads' : Multiset (Thread ρ ε υ)}
    (goes : Continues c c' threads threads') (leads : Leads p q c c' extra logged)
    (next : p.next ≤ q.next) (same : ∀ f < p.next, q.worth f = p.worth f)
    (good : ∀ t ∈ threads, t.Good p) :
    (∀ t ∈ extra + threads', t.Good q) ∧ (threads.map (Thread.effects p)).sum =
      logged + ((extra + threads').map (Thread.effects q)).sum := by
  cases goes with
  | plain =>
    rename_i future rest
    obtain ⟨v, fine, worth⟩ := good _ (Multiset.mem_cons_self _ _)
    obtain ⟨fine', threads, events⟩ := leads v fine
    have others : ∀ t ∈ rest, t.Good p := fun t member => good t (Multiset.mem_cons_of_mem member)
    refine ⟨fun t member => ?_, ?_⟩
    · rcases Multiset.mem_add.mp member with member | member
      · exact threads t member
      rcases Multiset.mem_cons.mp member with rfl | member
      · refine ⟨v, fine', fun f promised => ?_⟩
        obtain ⟨known, value⟩ := worth f promised
        exact ⟨known.trans_le next, (same f known).trans value⟩
      · exact (others t member).congr next same
    · simp only [Multiset.map_add, Multiset.map_cons, Multiset.sum_add, Multiset.sum_cons,
        effects_frame others same, Thread.effects, events]
      abel
  | loop =>
    rename_i body left rest
    obtain ⟨runs, current⟩ := good _ (Multiset.mem_cons_self _ _)
    obtain ⟨v, fine⟩ := current c rfl
    obtain ⟨fine', threads, events⟩ := leads v fine
    have others : ∀ t ∈ rest, t.Good p := fun t member => good t (Multiset.mem_cons_of_mem member)
    refine ⟨fun t member => ?_, ?_⟩
    · rcases Multiset.mem_add.mp member with member | member
      · exact threads t member
      rcases Multiset.mem_cons.mp member with rfl | member
      · refine ⟨runs, fun code here => ⟨v, ?_⟩⟩
        cases here
        exact fine'
      · exact (others t member).congr next same
    · simp only [Multiset.map_add, Multiset.map_cons, Multiset.sum_add, Multiset.sum_cons,
        effects_frame others same, Thread.effects, events, Option.map_some, Option.getD_some]
      abel

/-- One piece of code goes on, and the pool stays on its way. -/
theorem Sound.resumes {o : Outcome ε υ} (sound : Sound o p) (goes : Resumes c c' p p')
    (leads : Leads p q c c' extra logged) (next : p.next ≤ q.next)
    (same : ∀ f < p.next, q.worth f = p.worth f) (root : q.root = p'.root)
    (threads : q.threads = extra + p'.threads) (log : q.log = p.log ++ logged)
    (resolved : ∀ f v, q.resolved f = some v → f < q.next ∧ q.worth f = some v) : Sound o q := by
  have total := sound.effects
  cases goes with
  | root here =>
    obtain ⟨fine', started, events⟩ := leads _ (here ▸ sound.root)
    refine ⟨root ▸ fine', fun t member => ?_, resolved, ?_⟩
    · rw [threads] at member
      rcases Multiset.mem_add.mp member with member | member
      · exact started t member
      · exact (sound.threads t member).congr next same
    · rw [Pool.effects, here, events] at total
      rw [Pool.effects, root, threads, log, ← total, Multiset.map_add, Multiset.sum_add,
        effects_frame sound.threads same, ← Multiset.coe_add]
      abel
  | thread inner =>
    obtain ⟨fine, events⟩ := inner.leads leads next same sound.threads
    refine ⟨root ▸ sound.root.congr next same, fun t member => fine t (threads ▸ member), resolved,
      ?_⟩
    rw [Pool.effects, events] at total
    rw [Pool.effects, root, threads, log, ← total, ← Multiset.coe_add,
      Code.outcome_congr fun f known => same f (sound.root.known f known)]
    abel

/-- Threads are replaced by others that come to the same. -/
theorem Sound.replace {o : Outcome ε υ} (sound : Sound o p) (before after : Multiset (Thread ρ ε υ))
    {rest : Multiset (Thread ρ ε υ)} (alike : Alike p q) (here : p.threads = before + rest)
    (threads : q.threads = after + rest)
    (root : q.root = p.root) (log : q.log = p.log)
    (resolved : ∀ f v, q.resolved f = some v → f < p.next ∧ p.worth f = some v)
    (good : ∀ t ∈ after, t.Good p)
    (events : (before.map (Thread.effects p)).sum = (after.map (Thread.effects p)).sum) :
    Sound o q := by
  refine ⟨root ▸ alike.codeGood sound.root, fun t member => alike.good ?_, ?_, ?_⟩
  · rw [threads] at member
    rcases Multiset.mem_add.mp member with member | member
    · exact good t member
    · exact sound.threads t (here ▸ Multiset.mem_add.mpr (.inr member))
  · rw [alike.worth, alike.next]
    exact resolved
  · rw [← sound.effects, Pool.effects, Pool.effects, root, log, threads, here, alike.effects,
      alike.outcome, Multiset.map_add, Multiset.map_add, Multiset.sum_add, Multiset.sum_add, events]

end Frame

/-! ### Steps of the pool -/

omit [Iterated ρ] in
theorem Resumes.alike (goes : Resumes c c' p p') : Alike p p' ∧ p'.log = p.log ∧
    p'.resolved = p.resolved := by
  cases goes <;> exact ⟨⟨rfl, rfl⟩, rfl, rfl⟩

/-- A future for `child` is worth what `child` comes to, and the others what they were worth. -/
theorem worth_promise (alike : Alike p p') (child : Program ρ ε υ) (f : ℕ) :
    (p'.promise child).worth f =
      if f = p.next then (child.run []).map Outcome.value else p.worth f := by
  simp only [Pool.worth, Pool.promise, alike.next, alike.source]
  split
  · next same => rw [same, update_self]
  · next other => rw [update_of_ne other]

/-- The code goes on with a future that is worth what the child comes to. -/
theorem leads_future (alike : Alike p p') {rest : ℕ → Program ρ ε υ} {fs : List ℕ} :
    Leads p (p'.promise child) ⟨.future child rest, fs⟩
      ⟨rest fs.length, fs ++ [p.next]⟩ {.plain ⟨child, []⟩ (some p.next)} [] := by
  intro v good
  obtain ⟨known, vs, o, env, ran, rfl⟩ := Code.good_iff.mp good
  simp only [Program.run, Option.bind_eq_some_iff, Option.map_eq_some_iff] at ran
  obtain ⟨first, made, second, ran, rfl⟩ := ran
  rw [mapM_length env] at ran
  have next : (p'.promise child).next = p.next + 1 := by rw [Pool.promise, alike.next]
  have worth : (p'.promise child).worth p.next = some first.value := by
    rw [worth_promise alike, if_pos rfl, made, Option.map_some]
  have env' : (fs ++ [p.next]).mapM (p'.promise child).worth = some (vs ++ [first.value]) := by
    have old : fs.mapM (p'.promise child).worth = some vs := by
      rw [← env]
      exact mapM_congr fun f member => by rw [worth_promise alike, if_neg (known f member).ne]
    rw [List.mapM_append, old]
    simp [worth]
  refine ⟨Code.good_iff.mpr ⟨fun f member => ?_, _, second, env', ran, rfl⟩, ?_, ?_⟩
  · rw [next]
    rcases List.mem_append.mp member with member | member
    · exact (known f member).trans (Nat.lt_succ_self _)
    · rw [List.mem_singleton.mp member]
      exact Nat.lt_succ_self _
  · intro t member
    rw [Multiset.mem_singleton.mp member]
    refine ⟨first.value, Code.good_iff.mpr ⟨by simp, [], first, rfl, made, rfl⟩, fun f here => ?_⟩
    obtain rfl : p.next = f := Option.some.inj here
    exact ⟨by rw [next]; exact Nat.lt_succ_self _, worth⟩
  · have child' : effects (Code.outcome (p'.promise child) ⟨child, []⟩) = first.events :=
      effects_code rfl made
    have code : effects (Code.outcome p ⟨.future child rest, fs⟩) =
        (first.events ++ second.events : List ε) := by
      refine effects_code (o := second.after first.events) env ?_
      simp [Program.run, made, mapM_length env, ran]
    rw [code, effects_code env' ran, Multiset.map_singleton, Multiset.sum_singleton, Thread.effects,
      child', ← Multiset.coe_add, Multiset.coe_nil, zero_add]

variable {o : Outcome ε υ} {program rest : Program ρ ε υ} {fs : List ℕ}

theorem Sound.goes (sound : Sound o p) {q : Pool ρ ε υ} (extra : Multiset (Thread ρ ε υ))
    (logged : List ε) (goes : Resumes ⟨program, fs⟩ ⟨rest, fs⟩ p p') (alike : Alike p' q)
    (root : q.root = p'.root) (threads : q.threads = extra + p'.threads)
    (log : q.log = p.log ++ logged) (resolved : q.resolved = p'.resolved)
    (comes : ∀ vs o, fs.mapM p.worth = some vs → program.run vs = some o →
      ∃ o', rest.run vs = some o' ∧ o'.value = o.value ∧ (∀ t ∈ extra, t.Good q) ∧
        (o.events : Multiset ε) = logged + ((extra.map (Thread.effects q)).sum + o'.events)) :
    Sound o q := by
  obtain ⟨before, -, same⟩ := goes.alike
  have both : Alike p q := ⟨alike.source.trans before.source, alike.next.trans before.next⟩
  refine sound.resumes goes (leads_alike both comes) both.next.ge
    (fun f _ => congrFun both.worth f) root threads log ?_
  rw [resolved, same, both.next, both.worth]
  exact sound.resolved

theorem Sound.silent (sound : Sound o p) (goes : Resumes ⟨program, fs⟩ ⟨rest, fs⟩ p p')
    (comes : ∀ vs o, fs.mapM p.worth = some vs → program.run vs = some o → rest.run vs = some o) :
    Sound o p' := by
  refine sound.goes 0 [] goes ⟨rfl, rfl⟩ rfl (zero_add _).symm
    (by rw [List.append_nil, goes.alike.2.1]) rfl fun vs o env ran => ?_
  exact ⟨o, comes vs o env ran, rfl, by simp, by simp⟩

theorem Sound.emit {e : ε} (sound : Sound o p) (goes : Resumes ⟨.emit e rest, fs⟩ ⟨rest, fs⟩ p p') :
    Sound o { p' with log := p.log ++ [e] } := by
  refine sound.goes 0 [e] goes ⟨rfl, rfl⟩ rfl (zero_add _).symm rfl rfl fun vs o env ran => ?_
  obtain ⟨o', next, rfl⟩ := Option.map_eq_some_iff.mp ran
  exact ⟨o', next, rfl, by simp, by simp⟩

theorem Sound.start (sound : Sound o p) (goes : Resumes ⟨program, fs⟩ ⟨rest, fs⟩ p p')
    (comes : ∀ vs o, program.run vs = some o → ∃ first o', rest.run vs = some o' ∧
      o = o'.after first ∧ t.Good (p'.start t) ∧ t.effects (p'.start t) = first) :
    Sound o (p'.start t) := by
  refine sound.goes {t} [] goes ⟨rfl, rfl⟩ rfl rfl ((goes.alike.2.1).trans (List.append_nil _).symm)
    rfl fun vs o env ran => ?_
  obtain ⟨first, o', next, rfl, good, events⟩ := comes vs o ran
  refine ⟨o', next, rfl, fun u member => ?_, ?_⟩
  · rw [Multiset.mem_singleton.mp member]
    exact good
  · rw [Multiset.map_singleton, Multiset.sum_singleton, events, Multiset.coe_nil, zero_add,
      Multiset.coe_add, Outcome.after_events]

theorem Sound.async (sound : Sound o p) (goes : Resumes ⟨.async child rest, fs⟩ ⟨rest, fs⟩ p p') :
    Sound o (p'.start (.plain ⟨child, []⟩ none)) := by
  refine sound.start goes fun vs o ran => ?_
  simp only [Program.run, Option.bind_eq_some_iff, Option.map_eq_some_iff] at ran
  obtain ⟨first, made, o', ran, rfl⟩ := ran
  refine ⟨first.events, o', ran, rfl, ⟨first.value, ?_, by simp⟩, effects_code rfl made⟩
  exact Code.good_iff.mpr ⟨by simp, [], first, rfl, made, rfl⟩

theorem Sound.each {loop : ρ} {body : ℤ → Program ρ ε υ} (sound : Sound o p)
    (goes : Resumes ⟨.each loop body rest, fs⟩ ⟨rest, fs⟩ p p') :
    Sound o (p'.start (.loop body (Iterated.points loop) none)) := by
  refine sound.start goes fun vs o ran => ?_
  simp only [Program.run, Option.bind_eq_some_iff, Option.map_eq_some_iff] at ran
  obtain ⟨os, made, o', ran, rfl⟩ := ran
  obtain ⟨runs, events⟩ := mapM_effects made
  refine ⟨os.flatMap Outcome.events, o', ran, rfl, ⟨runs, by simp⟩, ?_⟩
  simp [Thread.effects, events]

theorem Sound.future {rest : ℕ → Program ρ ε υ} (sound : Sound o p)
    (goes : Resumes ⟨.future child rest, fs⟩ ⟨rest fs.length, fs ++ [p.next]⟩ p p') :
    Sound o (p'.promise child) := by
  obtain ⟨alike, log, resolved⟩ := goes.alike
  refine sound.resumes goes (leads_future alike) ?_ (fun f known => ?_) rfl ?_ ?_ fun f v here => ?_
  · rw [Pool.promise, alike.next]
    exact Nat.le_succ _
  · rw [worth_promise alike, if_neg known.ne]
  · rw [Pool.promise, alike.next, Multiset.singleton_add]
  · rw [List.append_nil]
    exact log
  · simp only [Pool.promise, alike.next, resolved] at here
    by_cases new : f = p.next
    · simp [new] at here
    · rw [update_of_ne new] at here
      obtain ⟨known, worth⟩ := sound.resolved f v here
      rw [worth_promise alike, if_neg new, Pool.promise, alike.next]
      exact ⟨known.trans (Nat.lt_succ_self _), worth⟩

theorem Sound.await {k f : ℕ} {rest : υ → Program ρ ε υ} (sound : Sound o p)
    (known : fs[k]? = some f) (ready : p.resolved f = some v)
    (goes : Resumes ⟨.await k rest, fs⟩ ⟨rest v, fs⟩ p p') : Sound o p' := by
  refine sound.silent goes fun vs o env ran => ?_
  obtain ⟨value, got, ran⟩ := Option.bind_eq_some_iff.mp ran
  -- What the future delivered is what it was worth all the time.
  rw [mapM_getElem? env k, known, Option.bind_some, (sound.resolved f v ready).2] at got
  obtain rfl := Option.some.inj got
  exact ran

theorem Sound.becomes (sound : Sound o p) {others threads : Multiset (Thread ρ ε υ)}
    (here : p.threads = t ::ₘ others) (after : Multiset (Thread ρ ε υ))
    (there : threads = after + others) (good : t.Good p → ∀ u ∈ after, u.Good p)
    (events : t.effects p = (after.map (Thread.effects p)).sum) :
    Sound o { p with threads := threads } := by
  refine sound.replace {t} after ⟨rfl, rfl⟩ here there rfl rfl sound.resolved ?_ ?_
  · exact good (sound.threads t (here ▸ Multiset.mem_cons_self t others))
  · rw [Multiset.map_singleton, Multiset.sum_singleton, events]

theorem Sound.delivers {f : ℕ} {others : Multiset (Thread ρ ε υ)} (sound : Sound o p)
    (here : p.threads = .plain ⟨.ret v, fs⟩ (some f) ::ₘ others) :
    Sound o { p with threads := others, resolved := update p.resolved f (some v) } := by
  obtain ⟨v', good, worth⟩ := sound.threads _ (here ▸ Multiset.mem_cons_self _ others)
  obtain ⟨-, vs, o, env, ran, rfl⟩ := Code.good_iff.mp good
  obtain rfl := Option.some.inj ran
  refine sound.replace {.plain ⟨.ret v, fs⟩ (some f)} 0 ⟨rfl, rfl⟩ here (zero_add others).symm rfl
    rfl (fun g u got => ?_) (by simp) ?_
  · dsimp only at got
    by_cases same : g = f
    · subst same
      rw [update_self] at got
      obtain rfl := Option.some.inj got
      exact worth g rfl
    · rw [update_of_ne same] at got
      exact sound.resolved g u got
  · simp [Thread.effects, effects_code (c := ⟨.ret v, fs⟩) env ran]

section Loops

variable {body : ℤ → Program ρ ε υ} {i : ℤ} {left : Multiset ℤ} {others : Multiset (Thread ρ ε υ)}

theorem Sound.begins (sound : Sound o p)
    (here : p.threads = .loop body (i ::ₘ left) none ::ₘ others) :
    Sound o { p with threads := .loop body left (some ⟨body i, []⟩) ::ₘ others } := by
  refine sound.becomes here {.loop body left (some ⟨body i, []⟩)} rfl ?_ ?_
  · rintro ⟨runs, -⟩ t member
    rw [Multiset.mem_singleton.mp member]
    refine ⟨fun j left => runs j (Multiset.mem_cons_of_mem left), fun code here => ?_⟩
    obtain rfl := Option.some.inj here
    obtain ⟨first, ran⟩ := Option.isSome_iff_exists.mp (runs i (Multiset.mem_cons_self i left))
    exact ⟨first.value, Code.good_iff.mpr ⟨by simp, [], first, rfl, ran, rfl⟩⟩
  · simp only [Multiset.map_singleton, Multiset.sum_singleton, Thread.effects, Multiset.map_cons,
      Multiset.sum_cons, Option.map_none, Option.getD_none, Option.map_some, Option.getD_some,
      add_zero]
    rw [add_comm]
    rfl

theorem Sound.ends {v : υ} (sound : Sound o p)
    (here : p.threads = .loop body left (some ⟨.ret v, fs⟩) ::ₘ others) :
    Sound o { p with threads := .loop body left none ::ₘ others } := by
  obtain ⟨-, current⟩ := sound.threads _ (here ▸ Multiset.mem_cons_self _ others)
  obtain ⟨v', good⟩ := current _ rfl
  obtain ⟨-, vs, o, env, ran, rfl⟩ := Code.good_iff.mp good
  obtain rfl := Option.some.inj ran
  refine sound.becomes here {.loop body left none} rfl ?_ ?_
  · rintro ⟨runs, -⟩ t member
    rw [Multiset.mem_singleton.mp member]
    exact ⟨runs, by simp⟩
  · simp [Thread.effects, effects_code (c := ⟨.ret v, fs⟩) env ran]

theorem Sound.splits {lower upper : Multiset ℤ} {current : Option (Code ρ ε υ)} (sound : Sound o p)
    (here : p.threads = .loop body (lower + upper) current ::ₘ others) :
    Sound o { p with
      threads := .loop body lower current ::ₘ .loop body upper none ::ₘ others } := by
  refine sound.becomes here (.loop body lower current ::ₘ {.loop body upper none}) ?_ ?_ ?_
  · rw [Multiset.cons_add, Multiset.singleton_add]
  · rintro ⟨runs, codes⟩ t member
    rcases Multiset.mem_cons.mp member with rfl | member
    · exact ⟨fun j left => runs j (Multiset.mem_add.mpr (.inl left)), codes⟩
    · rw [Multiset.mem_singleton.mp member]
      exact ⟨fun j left => runs j (Multiset.mem_add.mpr (.inr left)), by simp⟩
  · simp only [Thread.effects, Multiset.map_cons, Multiset.map_singleton, Multiset.sum_cons,
      Multiset.sum_singleton, Multiset.map_add, Multiset.sum_add, Option.map_none, Option.getD_none]
    abel

end Loops

/-- A thread that is through has no effects left. -/
theorem Sound.leaves (sound : Sound o p) {others : Multiset (Thread ρ ε υ)}
    (here : p.threads = t ::ₘ others) (through : t.Good p → t.effects p = 0) :
    Sound o { p with threads := others } := sound.becomes here 0 (zero_add others).symm
    (fun _ _ none => absurd none (Multiset.notMem_zero _))
    (through (sound.threads t (here ▸ Multiset.mem_cons_self t others)))

theorem Sound.step (sound : Sound o p) (step : Step p p') : Sound o p' := by
  cases step with
  | emit goes => exact sound.emit goes
  | async goes => exact sound.async goes
  | each goes => exact sound.each goes
  | future goes => exact sound.future goes
  | await known ready goes => exact sound.await known ready goes
  | skip goes => exact sound.silent goes fun _ _ _ ran => ran
  | join here _ => exact sound.silent (.root here) fun _ _ _ ran => ran
  | pass goes => exact sound.silent (.thread goes) fun _ _ _ ran => ran
  | begins here => exact sound.begins here
  | ends here => exact sound.ends here
  | splits here => exact sound.splits here
  | closes here => exact sound.leaves here fun _ => by simp [Thread.effects]
  | returns here =>
    refine sound.leaves here ?_
    rintro ⟨v, good, -⟩
    obtain ⟨-, vs, o, env, ran, -⟩ := Code.good_iff.mp good
    obtain rfl := Option.some.inj ran
    exact effects_code env ran
  | delivers here => exact sound.delivers here

theorem Sound.init (ran : main.run [] = some o) : Sound o (.init main) := by
  refine ⟨Code.good_iff.mpr ⟨by simp [Pool.init], [], o, rfl, ran, rfl⟩, by simp [Pool.init],
    by simp [Pool.init], ?_⟩
  have root : ForkJoin.effects ((Pool.init main).root.outcome (Pool.init main)) = o.events :=
    effects_code rfl ran
  rw [Pool.effects, root]
  simp [Pool.init]

/-- A program whose sequential run comes to `o` is on its way there in every state of every
parallel run. -/
theorem reachable_sound (ran : main.run [] = some o) (reached : (parallel main).Reachable p) :
    Sound o p :=
  reached.invariant (fun _ initial => initial ▸ Sound.init ran)
    fun _ _ _ sound step => sound.step step

/-- A main program that is through has the result of the sequential one, and no effects left. -/
theorem Sound.result (sound : Sound o p) (through : p.root.program.result = some v) :
    v = o.value ∧ ForkJoin.effects (p.root.outcome p) = 0 := by
  obtain ⟨-, vs, o', env, ran, value⟩ := Code.good_iff.mp sound.root
  have events := effects_code env ran
  rw [Program.result_eq_some through] at ran
  obtain rfl := Option.some.inj ran
  exact ⟨value, events⟩

/-- The value is known before the last barrier. -/
theorem Sound.value (sound : Sound o p)
    (known : p.root.program = .join (.ret v) ∨ p.root.program = .ret v) : v = o.value := by
  obtain ⟨-, vs, o', env, ran, value⟩ := Code.good_iff.mp sound.root
  rcases known with here | here
  all_goals
    rw [here] at ran
    obtain rfl := Option.some.inj ran
    exact value

/-- Without threads, what was done and what the main program still does is everything. -/
theorem Sound.joined (sound : Sound o p) (through : p.threads = 0) :
    (p.log : Multiset ε) + ForkJoin.effects (p.root.outcome p) = o.events := by
  rw [← sound.effects, Pool.effects, through, Multiset.map_zero, Multiset.sum_zero, add_zero]

/-! ## Programs with a barrier at the end -/

/-- The main program has not come to its last barrier, or no thread is left. -/
def Pool.Closing (p : Pool ρ ε υ) : Prop :=
  (∃ q, p.root.program = Program.closed q) ∨ p.threads = 0 ∧ ∃ v, p.root.program = .ret v

omit [Iterated ρ] in
theorem Continues.ne_zero {threads threads' : Multiset (Thread ρ ε υ)}
    (goes : Continues c c' threads threads') : threads ≠ 0 := by
  cases goes <;> exact Multiset.cons_ne_zero

omit [Iterated ρ] in
/-- Code goes on, and the last barrier is still ahead. -/
theorem Pool.Closing.resumes (closing : p.Closing) (goes : Resumes c c' p p')
    (awake : ∀ v, c.program ≠ .ret v)
    (ahead : ∀ q, c.program = Program.closed q → ∃ q', c'.program = Program.closed q') :
    ∃ q, p'.root.program = Program.closed q := by
  cases goes with
  | root here =>
    subst here
    rcases closing with ⟨q, same⟩ | ⟨-, v, through⟩
    · exact ahead q same
    · exact absurd through (awake v)
  | thread inner =>
    exact closing.resolve_right fun behind => inner.ne_zero behind.1

omit [Iterated ρ] in
theorem Pool.Closing.others (closing : p.Closing) (working : p.threads ≠ 0)
    (same : p'.root = p.root) : p'.Closing := by
  rw [Pool.Closing, same]
  exact .inl (closing.resolve_right fun behind => working behind.1)

theorem Pool.Closing.step (closing : p.Closing) (step : Step p p') : p'.Closing := by
  have working {t : Thread ρ ε υ} {others : Multiset (Thread ρ ε υ)}
      (here : p.threads = t ::ₘ others) : p.threads ≠ 0 := here ▸ Multiset.cons_ne_zero
  cases step with
  | emit goes | async goes | each goes | future goes | await _ _ goes | skip goes =>
    have ahead := closing.resumes goes (by simp) fun q same => by
      cases q <;> simp only [Program.closed, Program.bind, reduceCtorEq] at same
      cases same
      exact ⟨_, rfl⟩
    exact .inl ahead
  | join here through =>
    rcases closing with ⟨q, same⟩ | ⟨-, v, behind⟩
    · rw [here] at same
      cases q <;> simp only [Program.closed, Program.bind, reduceCtorEq] at same
      · cases same
        exact .inr ⟨through, _, rfl⟩
      · cases same
        exact .inl ⟨_, rfl⟩
    · rw [here] at behind
      cases behind
  | pass goes => exact closing.others goes.ne_zero rfl
  | begins here | ends here | splits here | closes here | returns here | delivers here =>
    exact closing.others (working here) rfl

/-- A main program that ends with a barrier and is through has the result and the effects of the
sequential one. -/
theorem closed_through (ran : main.run [] = some o) (reached : (parallel main.closed).Reachable p)
    (through : p.root.program.result = some v) :
    p.threads = 0 ∧ v = o.value ∧ p.log.Perm o.events := by
  have sound := reachable_sound ((main.run_closed []).trans ran) reached
  have closing : p.Closing := reached.invariant (fun _ initial => .inl ⟨main, initial ▸ rfl⟩)
    fun _ _ _ closing step => closing.step step
  have behind : p.threads = 0 := by
    rcases closing with ⟨q, same⟩ | ⟨none, -⟩
    · rw [Program.result_eq_some through] at same
      cases q <;> simp [Program.closed, Program.bind] at same
    · exact none
  obtain ⟨value, spent⟩ := sound.result through
  refine ⟨behind, value, Multiset.coe_eq_coe.mp ?_⟩
  rw [← sound.joined behind, spent, add_zero]

/-! ## Programs whose tasks have no barriers -/

/-- No barrier anywhere. -/
def Program.Quiet : Program ρ ε υ → Prop
  | .ret _ => True
  | .emit _ rest | .skip rest => rest.Quiet
  | .async child rest => child.Quiet ∧ rest.Quiet
  | .each _ body rest => (∀ i, (body i).Quiet) ∧ rest.Quiet
  | .future child rest => child.Quiet ∧ ∀ k, (rest k).Quiet
  | .await _ rest => ∀ v, (rest v).Quiet
  | .join _ => False

/-- No barrier in the tasks; the main program may have some, where nothing but tasks is waited
for. -/
def Program.Flat : Program ρ ε υ → Prop
  | .ret _ => True
  | .emit _ rest | .skip rest | .join rest => rest.Flat
  | .async child rest => child.Quiet ∧ rest.Flat
  | .each _ body rest => (∀ i, (body i).Quiet) ∧ rest.Flat
  | .future child rest => child.Quiet ∧ ∀ k, (rest k).Flat
  | .await _ rest => ∀ v, (rest v).Flat

def Thread.Quiet : Thread ρ ε υ → Prop
  | .plain code _ => code.program.Quiet
  | .loop body _ current => (∀ i, (body i).Quiet) ∧ ∀ code ∈ current, code.program.Quiet

structure Pool.Flat (p : Pool ρ ε υ) : Prop where
  root : p.root.program.Flat
  threads : ∀ t ∈ p.threads, t.Quiet

omit [Iterated ρ] in
theorem Continues.quiet {threads threads' : Multiset (Thread ρ ε υ)}
    (goes : Continues c c' threads threads') (quiet : ∀ t ∈ threads, t.Quiet) :
    c.program.Quiet ∧ (c'.program.Quiet → ∀ t ∈ threads', t.Quiet) := by
  cases goes with
  | plain =>
    refine ⟨quiet _ (Multiset.mem_cons_self _ _), fun next t member => ?_⟩
    rcases Multiset.mem_cons.mp member with rfl | member
    · exact next
    · exact quiet t (Multiset.mem_cons_of_mem member)
  | loop =>
    obtain ⟨body, current⟩ := quiet _ (Multiset.mem_cons_self _ _)
    refine ⟨current c rfl, fun next t member => ?_⟩
    rcases Multiset.mem_cons.mp member with rfl | member
    · refine ⟨body, fun code here => ?_⟩
      obtain rfl := Option.some.inj here
      exact next
    · exact quiet t (Multiset.mem_cons_of_mem member)

omit [Iterated ρ] in
/-- Code goes on; `new` is what it starts. -/
theorem Pool.Flat.resumes (flat : p.Flat) (new : Prop) (goes : Resumes c c' p p')
    (task : c.program.Quiet → c'.program.Quiet ∧ new)
    (main : c.program.Flat → c'.program.Flat ∧ new) : p'.Flat ∧ new := by
  cases goes with
  | root here =>
    obtain ⟨next, started⟩ := main (here ▸ flat.root)
    exact ⟨⟨next, flat.threads⟩, started⟩
  | thread inner =>
    obtain ⟨quiet, threads⟩ := inner.quiet flat.threads
    obtain ⟨next, started⟩ := task quiet
    exact ⟨⟨flat.root, threads next⟩, started⟩

omit [Iterated ρ] in
theorem Pool.Flat.start (flat : p.Flat) (quiet : t.Quiet) :
    (p.start t).Flat := by
  refine ⟨flat.root, fun u member => ?_⟩
  rcases Multiset.mem_cons.mp member with rfl | member
  · exact quiet
  · exact flat.threads u member

theorem Pool.Flat.step (flat : p.Flat) (step : Step p p') : p'.Flat := by
  have first {t : Thread ρ ε υ} {others : Multiset (Thread ρ ε υ)}
      (here : p.threads = t ::ₘ others) : t.Quiet ∧ ∀ u ∈ others, u.Quiet :=
    Multiset.forall_mem_cons.mp fun u member => flat.threads u (here ▸ member)
  cases step with
  | emit goes =>
    obtain ⟨next, -⟩ := flat.resumes True goes (⟨·, trivial⟩) (⟨·, trivial⟩)
    exact ⟨next.root, next.threads⟩
  | async goes =>
    obtain ⟨next, quiet⟩ := flat.resumes _ goes And.symm And.symm
    exact next.start quiet
  | each goes =>
    obtain ⟨next, quiet⟩ := flat.resumes _ goes And.symm And.symm
    exact next.start ⟨quiet, by simp⟩
  | @future child _ _ p' goes =>
    obtain ⟨next, quiet⟩ := flat.resumes _ goes (fun quiet => ⟨quiet.2 _, quiet.1⟩)
      fun quiet => ⟨quiet.2 _, quiet.1⟩
    obtain ⟨root, threads⟩ := next.start (t := .plain ⟨child, []⟩ (some p'.next)) quiet
    exact ⟨root, threads⟩
  | @await _ _ v _ _ _ _ _ goes =>
    exact (flat.resumes True goes (⟨· v, trivial⟩) (⟨· v, trivial⟩)).1
  | skip goes => exact (flat.resumes True goes (⟨·, trivial⟩) (⟨·, trivial⟩)).1
  | join here _ => exact ⟨by simpa [here, Program.Flat] using flat.root, flat.threads⟩
  | pass goes => exact absurd (goes.quiet flat.threads).1 id
  | begins here =>
    obtain ⟨⟨body, -⟩, others⟩ := first here
    refine ⟨flat.root, Multiset.forall_mem_cons.mpr ⟨⟨body, fun code current => ?_⟩, others⟩⟩
    obtain rfl := Option.some.inj current
    exact body _
  | ends here =>
    obtain ⟨⟨body, -⟩, others⟩ := first here
    exact ⟨flat.root, Multiset.forall_mem_cons.mpr ⟨⟨body, by simp⟩, others⟩⟩
  | splits here =>
    obtain ⟨⟨body, current⟩, others⟩ := first here
    exact ⟨flat.root, Multiset.forall_mem_cons.mpr ⟨⟨body, current⟩,
      Multiset.forall_mem_cons.mpr ⟨⟨body, by simp⟩, others⟩⟩⟩
  | closes here | returns here | delivers here => exact ⟨flat.root, (first here).2⟩

theorem reachable_flat (flat : main.Flat) (reached : (parallel main).Reachable p) : p.Flat :=
  reached.invariant (fun _ initial => initial ▸ ⟨flat, by simp [Pool.init]⟩)
    fun _ _ _ flat step => flat.step step

end Denotation

end Tasking.ForkJoin
