import Mathlib.Data.List.Forall2
import Tasking.Runtime

/-! `AWAIT` on a single worker.  The only worker has to run an awaited task itself,
and `RT_force_future` only looks for it at the head of the deque, among the
children of the awaiting task.  If something else lies on top, it enters its
stealing loop, from which a single worker never returns.

`exec` follows the source: a task runs to completion inside the `AWAIT` of
another.  `walk` reads off a task's body alone whether that can go wrong, and
`exec_walk` says that it is right. -/
namespace Tasking.OneWorker

/-- The body of a task, as far as it concerns tasks and futures. -/
inductive Code where
  | done
  | async (child rest : Code)
  | future (child rest : Code)
  /-- `AWAIT` of the `k`-th future the task has created. -/
  | await (k : ℕ) (rest : Code)
  deriving DecidableEq, Repr

/-- Every `AWAIT` names a future that the task has created before; `count` is how
many it has created so far. -/
def Code.Scoped : Code → (count : ℕ) → Prop
  | .done, _ => True
  | .async child rest, count => child.Scoped 0 ∧ rest.Scoped count
  | .future child rest, count => child.Scoped 0 ∧ rest.Scoped (count + 1)
  | .await k rest, count => k < count ∧ rest.Scoped count

/-- Every future is awaited once, by the task that created it; `pending` are the
futures not yet awaited. -/
def Code.AwaitsOnce : Code → (count : ℕ) → (pending : List ℕ) → Prop
  | .done, _, pending => pending = []
  | .async child rest, count, pending => child.AwaitsOnce 0 [] ∧ rest.AwaitsOnce count pending
  | .future child rest, count, pending =>
    child.AwaitsOnce 0 [] ∧ rest.AwaitsOnce (count + 1) (count :: pending)
  | .await k rest, count, pending => k ∈ pending ∧ rest.AwaitsOnce count (pending.erase k)

theorem scoped_of_awaitsOnce {code : Code} : ∀ {count : ℕ} {pending : List ℕ},
    code.AwaitsOnce count pending → (∀ k ∈ pending, k < count) → code.Scoped count := by
  induction code with
  | done => intros; trivial
  | async child rest childScoped restScoped =>
    intro count pending once bound
    exact ⟨childScoped once.1 nofun, restScoped once.2 bound⟩
  | future child rest childScoped restScoped =>
    intro count pending once bound
    refine ⟨childScoped once.1 nofun, restScoped once.2 ?_⟩
    exact List.forall_mem_cons.2
      ⟨Nat.lt_succ_self _, fun k mem => Nat.lt_succ_of_lt (bound k mem)⟩
  | await k rest ih =>
    intro count pending once bound
    exact ⟨bound k once.1, ih once.2 fun j mem => bound j (List.mem_of_mem_erase mem)⟩

def Code.size : Code → ℕ
  | .done => 1
  | .async child rest | .future child rest => 1 + child.size + rest.size
  | .await _ rest => 1 + rest.size

/-! ## Running a program -/

/-- A task in the deque.  Its number stands for its address: an address is only
used again when the task that had it is done, and an awaiting task only looks at
tasks pushed since it started. -/
structure Queued where
  id : ℕ
  parent : ℕ
  code : Code
  deriving DecidableEq, Repr

structure Store where
  deque : List Queued
  next : ℕ
  /-- The tasks that have finished, so that their futures are set. -/
  ready : List ℕ
  deriving DecidableEq, Repr

inductive Outcome where
  | returned (st : Store)
  /-- `RT_force_future` entered `while (!READY)` with the future not ready. -/
  | stealing
  /-- `AWAIT` of something that is not a future of the task. -/
  | unbound
  | outOfFuel
  deriving DecidableEq, Repr

/-- `RT_push`; a single worker has no requests to answer. -/
def push (self : ℕ) (child : Code) (st : Store) : Store :=
  { st with deque := ⟨st.next, self, child⟩ :: st.deque, next := st.next + 1 }

/-- `deque_pop(dq, parent)`. -/
def dequePop (parent : ℕ) : List Queued → Option (Queued × List Queued)
  | [] => none
  | t :: rest => if t.parent = parent then some (t, rest) else none

def Store.finish (st : Store) (id : ℕ) : Store := { st with ready := id :: st.ready }

/-- Task `self` runs its code; `env` are its futures.  `RT_force_future` tests
`READY` on entry and after every task it has run. -/
def exec : ℕ → (self : ℕ) → (env : List ℕ) → Code → Store → Outcome
  | 0, _, _, _, _ => .outOfFuel
  | _ + 1, _, _, .done, st => .returned st
  | fuel + 1, self, env, .async child rest, st => exec fuel self env rest (push self child st)
  | fuel + 1, self, env, .future child rest, st =>
    exec fuel self (env ++ [st.next]) rest (push self child st)
  | fuel + 1, self, env, .await k rest, st =>
    match env[k]? with
    | none => .unbound
    | some f =>
      if f ∈ st.ready then exec fuel self env rest st
      else
        match dequePop self st.deque with
        | none => .stealing
        | some (t, deque) =>
          match exec fuel t.id [] t.code { st with deque := deque } with
          | .returned st => exec fuel self env (.await k rest) (st.finish t.id)
          | other => other

/-- `RT_barrier`: run what is left, children or not.  Only `RT_force_future` insists on
children. -/
def barrier : ℕ → Store → Outcome
  | 0, _ => .outOfFuel
  | fuel + 1, st =>
    match st.deque with
    | [] => .returned st
    | t :: deque =>
      match exec fuel t.id [] t.code { st with deque := deque } with
      | .returned st => barrier fuel (st.finish t.id)
      | other => other

/-- The root task, number 0, and the barrier after it. -/
def main (fuel : ℕ) (code : Code) : Outcome :=
  match exec fuel 0 [] code ⟨[], 1, []⟩ with
  | .returned st => barrier fuel st
  | other => other

/-! ## Reading it off the program -/

/-- What lies on the deque above the tasks that were there when a task started. -/
inductive Item where
  /-- A child: its future if it has one, and how many tasks it would leave behind,
  `none` if it would not return. -/
  | mine (future : Option ℕ) (left : Option ℕ)
  /-- Left behind by a child that has run. -/
  | foreign
  deriving DecidableEq, Repr

/-- The children that have to be run for future `k`, from the top: every one
before the last must return and leave nothing behind.  Returns which futures are
ready then, and what lies on the deque. -/
def dig (k : ℕ) : List Item → (ready : List ℕ) → Option (List ℕ × List Item)
  | .mine future (some left) :: items, ready =>
    if future = some k then some (future.toList ++ ready, List.replicate left .foreign ++ items)
    else if left = 0 then dig k items (future.toList ++ ready)
    else none
  | _, _ => none

/-- What a task leaves behind, or `none` if one of its `AWAIT`s gets stuck. -/
def walk : Code → (count : ℕ) → (ready : List ℕ) → List Item → Option (List Item)
  | .done, _, _, items => some items
  | .async child rest, count, ready, items =>
    walk rest count ready (.mine none ((walk child 0 [] []).map List.length) :: items)
  | .future child rest, count, ready, items =>
    walk rest (count + 1) ready
      (.mine (some count) ((walk child 0 [] []).map List.length) :: items)
  | .await k rest, count, ready, items =>
    if k ∈ ready then walk rest count ready items
    else
      match dig k items ready with
      | none => none
      | some (ready, items) => walk rest count ready items

def Code.left (code : Code) : Option ℕ := (walk code 0 [] []).map List.length

/-- Every task created, directly or not, returns. -/
def Code.tasksFit : Code → Bool
  | .done => true
  | .async child rest | .future child rest => child.left.isSome && child.tasksFit && rest.tasksFit
  | .await _ rest => rest.tasksFit

/-- No `AWAIT` of the program, in any of its tasks, gets stuck: whenever a task
awaits a future whose task has not run, above that there are only children of its
own, and none of these leaves anything behind. -/
def Code.fits (code : Code) : Bool := code.left.isSome && code.tasksFit

/-- Running the topmost child is a step towards the future. -/
theorem walk_await {k count left : ℕ} {rest : Code} {ready : List ℕ} {future : Option ℕ}
    {items : List Item} (unready : k ∉ ready) :
    walk (.await k rest) count ready (.mine future (some left) :: items) =
      walk (.await k rest) count (future.toList ++ ready)
        (List.replicate left .foreign ++ items) := by
  by_cases this : future = some k
  · subst this
    simp [walk, dig, unready]
  · have still : k ∉ future.toList ++ ready := by
      cases future with
      | none => simpa using unready
      | some j =>
        have other : k ≠ j := fun same => this (same ▸ rfl)
        simpa using ⟨other, unready⟩
    cases left with
    | zero => simp [walk, dig, unready, this, still]
    | succ left => simp [walk, dig, unready, this, still, List.replicate_succ]

/-! ## The deque as a task sees it -/

def total (deque : List Queued) : ℕ := (deque.map fun t => t.code.size).sum

@[simp] theorem total_nil : total [] = 0 := rfl

@[simp] theorem total_cons (t : Queued) (deque : List Queued) :
    total (t :: deque) = t.code.size + total deque := by
  simp [total]

@[simp] theorem total_append (a b : List Queued) : total (a ++ b) = total a + total b := by
  simp [total]

theorem Code.size_pos (code : Code) : 0 < code.size := by
  cases code <;> simp [Code.size]

/-- What an item says of a task, to task `self` with futures `env`. -/
def Describes (self : ℕ) (env : List ℕ) : Item → Queued → Prop
  | .mine future left, t => t.parent = self ∧ self < t.id ∧ left = t.code.left ∧
      t.code.Scoped 0 ∧ ∀ k, env[k]? = some t.id ↔ future = some k
  | .foreign, t => self < t.parent ∧ t.code.Scoped 0

/-- Task `task` is running and `above` lies on the deque since it started. -/
structure Sees (task : ℕ) (env ready : List ℕ) (items : List Item) (above : List Queued)
    (st : Store) : Prop where
  described : List.Forall₂ (Describes task env) items above
  task_lt : task < st.next
  env_lt : ∀ f ∈ env, f < st.next
  above_lt : ∀ t ∈ above, t.id < st.next
  ready_lt : ∀ f ∈ st.ready, f < st.next
  ready_iff : ∀ k f, env[k]? = some f → (f ∈ st.ready ↔ k ∈ ready)
  ready_env : ∀ k ∈ ready, k < env.length
  -- so an `AWAIT` never looks below `above`
  pending : ∀ k < env.length, k ∈ ready ∨ ∃ left, Item.mine (some k) left ∈ items

/-- What holds when task `task` has run `code` and `above'` is left of it. -/
structure Leaves (task : ℕ) (code : Code) (above below : List Queued) (st st' : Store)
    (above' : List Queued) : Prop where
  deque : st'.deque = above' ++ below
  left : ∀ t ∈ above', task ≤ t.parent ∧ t.code.Scoped 0 ∧ t.id < st'.next
  left_new : ∀ t ∈ above', t ∈ above ∨ st.next ≤ t.id
  next_le : st.next ≤ st'.next
  ready_lt : ∀ f ∈ st'.ready, f < st'.next
  ready_mono : ∀ f ∈ st.ready, f ∈ st'.ready
  ready_new : ∀ f ∈ st'.ready, f ∈ st.ready ∨ (∃ t ∈ above, t.id = f) ∨ st.next ≤ f
  less : total above' + 1 ≤ code.size + total above
  fits : (∀ t ∈ above', t.code.fits = true) ↔
    code.tasksFit = true ∧ ∀ t ∈ above, t.code.fits = true

/-- A run of `code` does what `walk` says. -/
def Agrees (self : ℕ) (code : Code) (above below : List Queued) (st : Store) :
    Option (List Item) → Outcome → Prop
  | none, outcome => outcome = .stealing
  | some items, outcome => ∃ st' above', outcome = .returned st' ∧
      above'.length = items.length ∧ Leaves self code above below st st' above'

theorem Agrees.imp {self : ℕ} {code rest : Code} {above above₁ below : List Queued}
    {st st₁ : Store} {expected : Option (List Item)} {outcome : Outcome}
    (agrees : Agrees self rest above₁ below st₁ expected outcome)
    (leaves : ∀ {st' above'}, Leaves self rest above₁ below st₁ st' above' →
      Leaves self code above below st st' above') :
    Agrees self code above below st expected outcome := by
  cases expected with
  | none => exact agrees
  | some items =>
    obtain ⟨st', above', returned, length, left⟩ := agrees
    exact ⟨st', above', returned, length, leaves left⟩

theorem Sees.start {self : ℕ} {st : Store} (self_lt : self < st.next)
    (ready_lt : ∀ f ∈ st.ready, f < st.next) : Sees self [] [] [] [] st where
  described := .nil
  task_lt := self_lt
  env_lt := by simp
  above_lt := by simp
  ready_lt := ready_lt
  ready_iff := by simp
  ready_env := by simp
  pending := by simp

section Run

variable {self : ℕ} {env ready : List ℕ} {items : List Item} {above below : List Queued}
  {st : Store}

theorem Sees.async (sees : Sees self env ready items above st) {child : Code}
    (named : child.Scoped 0) :
    Sees self env ready (.mine none child.left :: items) (⟨st.next, self, child⟩ :: above)
      (push self child st) where
  described := by
    refine .cons ⟨rfl, sees.task_lt, rfl, named, fun k => ?_⟩ sees.described
    refine iff_of_false (fun here => ?_) nofun
    exact absurd (sees.env_lt _ (List.mem_of_getElem? here)) (Nat.lt_irrefl _)
  task_lt := Nat.lt_succ_of_lt sees.task_lt
  env_lt f mem := Nat.lt_succ_of_lt (sees.env_lt f mem)
  above_lt := by
    simp only [push, List.mem_cons, forall_eq_or_imp]
    exact ⟨Nat.lt_succ_self _, fun t mem => Nat.lt_succ_of_lt (sees.above_lt t mem)⟩
  ready_lt f mem := Nat.lt_succ_of_lt (sees.ready_lt f mem)
  ready_iff := sees.ready_iff
  ready_env := sees.ready_env
  pending k lt := (sees.pending k lt).imp_right fun ⟨left, mem⟩ => ⟨left, .tail _ mem⟩

/-- A further future does not change what an item says. -/
theorem Describes.append {item : Item} {t : Queued} {f : ℕ} (told : Describes self env item t)
    (old : t.id < f) : Describes self (env ++ [f]) item t := by
  cases item with
  | foreign => exact told
  | mine future left =>
    obtain ⟨parent, younger, left, named, known⟩ := told
    refine ⟨parent, younger, left, named, fun k => ?_⟩
    rw [← known k]
    by_cases inside : k < env.length
    · rw [List.getElem?_append_left inside]
    · rw [List.getElem?_eq_none (Nat.le_of_not_lt inside),
        List.getElem?_append_right (Nat.le_of_not_lt inside)]
      refine iff_of_false (fun here => ?_) nofun
      have same : t.id = f := by simpa using List.mem_of_getElem? here
      exact absurd old (same ▸ Nat.lt_irrefl _)

theorem describes_append {f : ℕ} (described : List.Forall₂ (Describes self env) items above)
    (old : ∀ t ∈ above, t.id < f) : List.Forall₂ (Describes self (env ++ [f])) items above := by
  induction described with
  | nil => exact .nil
  | cons told _ ih =>
    exact .cons (told.append (old _ (.head _))) (ih fun t mem => old t (.tail _ mem))

theorem Sees.future (sees : Sees self env ready items above st) {child : Code}
    (named : child.Scoped 0) :
    Sees self (env ++ [st.next]) ready (.mine (some env.length) child.left :: items)
      (⟨st.next, self, child⟩ :: above) (push self child st) where
  described := by
    refine .cons ⟨rfl, sees.task_lt, rfl, named, fun k => ?_⟩ ?_
    · constructor
      · intro here
        by_cases inside : k < env.length
        · rw [List.getElem?_append_left inside] at here
          exact absurd (sees.env_lt _ (List.mem_of_getElem? here)) (Nat.lt_irrefl _)
        · have bound := (List.getElem?_eq_some_iff.1 here).1
          simp only [List.length_append, List.length_singleton] at bound
          have last : k = env.length := by omega
          rw [last]
      · rintro ⟨⟩
        simp
    · exact describes_append sees.described sees.above_lt
  task_lt := Nat.lt_succ_of_lt sees.task_lt
  env_lt := by
    simp only [List.mem_append, List.mem_singleton, push]
    rintro f (mem | rfl)
    · exact Nat.lt_succ_of_lt (sees.env_lt f mem)
    · exact Nat.lt_succ_self _
  above_lt := (sees.async named).above_lt
  ready_lt := (sees.async named).ready_lt
  ready_iff k f here := by
    by_cases inside : k < env.length
    · rw [List.getElem?_append_left inside] at here
      exact sees.ready_iff k f here
    · have bound := (List.getElem?_eq_some_iff.1 here).1
      rw [List.getElem?_append_right (Nat.le_of_not_lt inside)] at here
      have new : f = st.next := by simpa using List.mem_of_getElem? here
      refine iff_of_false (fun mem => ?_) fun mem => inside (sees.ready_env k mem)
      exact absurd (sees.ready_lt f mem) (new ▸ Nat.lt_irrefl _)
  ready_env k mem := by
    have := sees.ready_env k mem
    simp only [List.length_append, List.length_singleton]
    omega
  pending k lt := by
    simp only [List.length_append, List.length_singleton] at lt
    rcases Nat.lt_succ_iff_lt_or_eq.1 lt with old | rfl
    · exact (sees.pending k old).imp_right fun ⟨left, mem⟩ => ⟨left, .tail _ mem⟩
    · exact .inr ⟨child.left, .head _⟩

theorem Describes.left {item : Item} {t : Queued} (told : Describes self env item t) :
    self ≤ t.parent ∧ t.code.Scoped 0 := by
  cases item with
  | foreign => exact ⟨Nat.le_of_lt told.1, told.2⟩
  | mine future left => exact ⟨Nat.le_of_eq told.1.symm, told.2.2.2.1⟩

theorem describes_left (described : List.Forall₂ (Describes self env) items above) :
    ∀ t ∈ above, self ≤ t.parent ∧ t.code.Scoped 0 := by
  induction described with
  | nil => nofun
  | cons told _ ih => exact List.forall_mem_cons.2 ⟨told.left, ih⟩

theorem Sees.done (sees : Sees self env ready items above st) (deque : st.deque = above ++ below) :
    Leaves self .done above below st st above where
  deque := deque
  left t mem := by
    have told := describes_left sees.described t mem
    exact ⟨told.1, told.2, sees.above_lt t mem⟩
  left_new t mem := .inl mem
  next_le := Nat.le_refl _
  ready_lt := sees.ready_lt
  ready_mono f mem := mem
  ready_new f mem := .inl mem
  less := by simp [Code.size, Nat.add_comm]
  fits := by simp [Code.tasksFit]

theorem Leaves.awaited {k : ℕ} {rest : Code} {st' : Store} {above' : List Queued}
    (leaves : Leaves self rest above below st st' above') :
    Leaves self (.await k rest) above below st st' above' :=
  { leaves with
    less := Nat.le_trans leaves.less (by simp [Code.size, Nat.add_assoc])
    fits := leaves.fits }

theorem Leaves.pushed {code child rest : Code} {st' : Store} {above' : List Queued}
    (leaves : Leaves self rest (⟨st.next, self, child⟩ :: above) below (push self child st)
      st' above')
    (size : code.size = 1 + child.size + rest.size)
    (fits : code.tasksFit = (child.fits && rest.tasksFit)) :
    Leaves self code above below st st' above' where
  deque := leaves.deque
  left := leaves.left
  left_new t mem := by
    rcases leaves.left_new t mem with old | new
    · rcases List.mem_cons.1 old with rfl | old
      · exact .inr (Nat.le_refl _)
      · exact .inl old
    · exact .inr (Nat.le_of_succ_le new)
  next_le := Nat.le_of_succ_le leaves.next_le
  ready_lt := leaves.ready_lt
  ready_mono := leaves.ready_mono
  ready_new f mem := by
    rcases leaves.ready_new f mem with old | ⟨t, member, rfl⟩ | new
    · exact .inl old
    · rcases List.mem_cons.1 member with rfl | member
      · exact .inr (.inr (Nat.le_refl _))
      · exact .inr (.inl ⟨t, member, rfl⟩)
    · exact .inr (.inr (Nat.le_of_succ_le new))
  less := by
    have := leaves.less
    simp only [total_cons] at this
    omega
  fits := by
    rw [leaves.fits, fits]
    simp only [List.mem_cons, forall_eq_or_imp, Bool.and_eq_true]
    tauto

variable {t : Queued} {future left : Option ℕ} {st₁ : Store} {above₁ : List Queued}

/-- The topmost child has returned: its future is ready and what it has left
behind is not the task's. -/
theorem Sees.returned (sees : Sees self env ready (.mine future left :: items) (t :: above) st)
    (leaves : Leaves t.id t.code [] (above ++ below) { st with deque := above ++ below }
      st₁ above₁) :
    Sees self env (future.toList ++ ready) (List.replicate above₁.length .foreign ++ items)
      (above₁ ++ above) (st₁.finish t.id) := by
  obtain ⟨told, described⟩ := List.forall₂_cons.1 sees.described
  obtain ⟨-, younger, -, -, known⟩ := told
  have t_lt : t.id < st.next := sees.above_lt t (.head _)
  have later : st.next ≤ st₁.next := leaves.next_le
  refine ⟨?_, ?_, ?_, ?_, ?_, ?_, ?_, ?_⟩
  · refine List.rel_append ?_ described
    refine List.forall₂_iff_get.2 ⟨by simp, fun i _ inside => ?_⟩
    have foreign := leaves.left _ (List.get_mem above₁ ⟨i, inside⟩)
    simpa [Describes] using ⟨Nat.lt_of_lt_of_le younger foreign.1, foreign.2.1⟩
  · exact Nat.lt_of_lt_of_le sees.task_lt later
  · exact fun f mem => Nat.lt_of_lt_of_le (sees.env_lt f mem) later
  · intro u mem
    rcases List.mem_append.1 mem with mem | mem
    · exact (leaves.left u mem).2.2
    · exact Nat.lt_of_lt_of_le (sees.above_lt u (.tail _ mem)) later
  · intro f mem
    rcases List.mem_cons.1 mem with rfl | mem
    · exact Nat.lt_of_lt_of_le t_lt later
    · exact leaves.ready_lt f mem
  · intro k f here
    -- the child's run has only set futures of tasks created in it
    have same : f ∈ st₁.ready ↔ k ∈ ready := by
      rw [← sees.ready_iff k f here]
      refine ⟨fun mem => ?_, leaves.ready_mono f⟩
      rcases leaves.ready_new f mem with old | ⟨u, none, -⟩ | new
      · exact old
      · cases none
      · exact absurd (sees.env_lt f (List.mem_of_getElem? here)) (Nat.not_lt_of_le new)
    have its : f = t.id ↔ future = some k := by
      rw [← known k, here, Option.some_inj]
    simp only [Store.finish, List.mem_cons, List.mem_append, Option.mem_toList,
      its, same]
  · intro k mem
    rcases List.mem_append.1 mem with mem | mem
    · exact (List.getElem?_eq_some_iff.1 ((known k).2 (Option.mem_toList.1 mem))).1
    · exact sees.ready_env k mem
  · intro k inside
    rcases sees.pending k inside with old | ⟨left, mem⟩
    · exact .inl (List.mem_append_right _ old)
    · rcases List.mem_cons.1 mem with head | mem
      · cases head
        exact .inl (List.mem_append_left _ (by simp))
      · exact .inr ⟨left, List.mem_append_right _ mem⟩

theorem Leaves.fits_task (leaves : Leaves self t.code [] below st st₁ above₁)
    (returns : t.code.left.isSome = true) :
    (∀ u ∈ above₁, u.code.fits = true) ↔ t.code.fits = true := by
  rw [leaves.fits, Code.fits, returns, Bool.true_and]
  simp

theorem Leaves.after_child {code : Code} {st₂ : Store} {above₂ : List Queued}
    (child : Leaves t.id t.code [] (above ++ below) { st with deque := above ++ below }
      st₁ above₁)
    (returns : t.code.left.isSome = true)
    (leaves : Leaves self code (above₁ ++ above) below (st₁.finish t.id) st₂ above₂) :
    Leaves self code (t :: above) below st st₂ above₂ where
  deque := leaves.deque
  left := leaves.left
  left_new u mem := by
    rcases leaves.left_new u mem with old | new
    · rcases List.mem_append.1 old with old | old
      · exact .inr ((child.left_new u old).resolve_left nofun)
      · exact .inl (.tail _ old)
    · exact .inr (Nat.le_trans child.next_le new)
  next_le := Nat.le_trans child.next_le leaves.next_le
  ready_lt := leaves.ready_lt
  ready_mono f mem := leaves.ready_mono f (.tail _ (child.ready_mono f mem))
  ready_new f mem := by
    rcases leaves.ready_new f mem with old | ⟨u, member, rfl⟩ | new
    · rcases List.mem_cons.1 old with rfl | old
      · exact .inr (.inl ⟨t, .head _, rfl⟩)
      · rcases child.ready_new f old with old | ⟨u, none, -⟩ | new
        · exact .inl old
        · cases none
        · exact .inr (.inr new)
    · rcases List.mem_append.1 member with member | member
      · exact .inr (.inr ((child.left_new u member).resolve_left nofun))
      · exact .inr (.inl ⟨u, .tail _ member, rfl⟩)
    · exact .inr (.inr (Nat.le_trans child.next_le new))
  less := by
    have whole := leaves.less
    have part := child.less
    simp only [total_append, total_cons, total_nil] at whole part ⊢
    omega
  fits := by
    rw [leaves.fits, List.forall_mem_append, List.forall_mem_cons, child.fits_task returns]

end Run

theorem push_deque {self : ℕ} {child : Code} {st : Store} {above below : List Queued}
    (deque : st.deque = above ++ below) :
    (push self child st).deque = (⟨st.next, self, child⟩ :: above) ++ below := by
  rw [push, deque, List.cons_append]

/-- A task does what `walk` reads off its body, whatever lies below on the deque. -/
theorem exec_walk (fuel : ℕ) : ∀ {self : ℕ} {env ready : List ℕ} {items : List Item}
    {above below : List Queued} {st : Store} {code : Code},
    code.size + total st.deque ≤ fuel → code.Scoped env.length → st.deque = above ++ below →
    Sees self env ready items above st →
    Agrees self code above below st (walk code env.length ready items)
      (exec fuel self env code st) := by
  induction fuel with
  | zero =>
    intro _ _ _ _ _ _ _ code enough
    have := code.size_pos
    omega
  | succ fuel ih =>
    intro self env ready items above below st code enough named deque sees
    cases code with
    | done => exact ⟨st, above, rfl, sees.described.length_eq.symm, sees.done deque⟩
    | async child rest =>
      have enough' : rest.size + total (push self child st).deque ≤ fuel := by
        simp only [Code.size, push, total_cons] at enough ⊢
        omega
      have agrees := ih enough' named.2 (push_deque deque) (sees.async named.1)
      exact agrees.imp fun leaves => leaves.pushed rfl rfl
    | future child rest =>
      have enough' : rest.size + total (push self child st).deque ≤ fuel := by
        simp only [Code.size, push, total_cons] at enough ⊢
        omega
      have named' : rest.Scoped (env ++ [st.next]).length := by simpa using named.2
      have agrees := ih enough' named' (push_deque deque) (sees.future named.1)
      rw [List.length_append, List.length_singleton] at agrees
      exact agrees.imp fun leaves => leaves.pushed rfl rfl
    | await k rest =>
      obtain ⟨f, here⟩ : ∃ f, env[k]? = some f := ⟨_, List.getElem?_eq_getElem named.1⟩
      simp only [exec, here]
      by_cases set : k ∈ ready
      · rw [if_pos ((sees.ready_iff k f here).2 set)]
        simp only [walk, set, if_true]
        refine (ih ?_ named.2 deque sees).imp Leaves.awaited
        simp only [Code.size] at enough
        omega
      rw [if_neg (mt (sees.ready_iff k f here).1 set)]
      -- the future is one of the children above, so there is a task at the head
      obtain ⟨_, member⟩ := (sees.pending k named.1).resolve_left set
      rcases above with _ | ⟨t, above⟩
      · rw [List.forall₂_nil_right_iff.1 sees.described] at member
        cases member
      obtain ⟨item, items, told, -, rfl⟩ := List.forall₂_cons_right_iff.1 sees.described
      rw [deque, List.cons_append, total_cons] at enough
      rw [deque, List.cons_append, dequePop]
      cases item with
      | foreign =>
        rw [if_neg (Nat.ne_of_gt told.1)]
        simp [walk, set, dig, Agrees]
      | mine future left =>
        obtain ⟨parent, -, rfl, named', -⟩ := told
        rw [if_pos parent]
        have enough' : t.code.size + total (above ++ below) ≤ fuel := by
          simp only [Code.size] at enough
          omega
        have child := ih enough' named' rfl
          (@Sees.start t.id { st with deque := above ++ below } (sees.above_lt t (.head _))
            sees.ready_lt)
        cases ends : walk t.code 0 [] [] with
        | none =>
          rw [List.length_nil, ends, Agrees] at child
          simp [child, walk, set, dig, Agrees, Code.left, ends]
        | some items' =>
          rw [List.length_nil, ends] at child
          obtain ⟨st₁, above₁, returned, length, leaves⟩ := child
          have left : t.code.left = some above₁.length := by simp [Code.left, ends, length]
          have less := leaves.less
          simp only [returned]
          rw [left, walk_await set]
          have deque' : (st₁.finish t.id).deque = (above₁ ++ above) ++ below := by
            simp [Store.finish, leaves.deque]
          refine (ih ?_ named deque' (sees.returned leaves)).imp
            (leaves.after_child (by simp [left]))
          simp only [deque', total_append, total_nil] at enough less ⊢
          omega

/-! ## The whole program -/

/-- A task that is started with nothing of its own on the deque. -/
theorem exec_task {fuel : ℕ} {t : Queued} {below : List Queued} {st : Store}
    (enough : t.code.size + total below ≤ fuel) (named : t.code.Scoped 0)
    (deque : st.deque = below) (t_lt : t.id < st.next) (ready_lt : ∀ f ∈ st.ready, f < st.next) :
    Agrees t.id t.code [] below st (walk t.code 0 [] []) (exec fuel t.id [] t.code st) :=
  exec_walk fuel (by rwa [deque]) named deque (Sees.start t_lt ready_lt)

/-- Whether a run comes to its end, with nothing left, or gets stuck, depends on `good`. -/
def Settled (good : Prop) (outcome : Outcome) : Prop :=
  (good → ∃ st, outcome = .returned st ∧ st.deque = []) ∧ (¬good → outcome = .stealing)

theorem barrier_settled (fuel : ℕ) : ∀ {st : Store}, total st.deque + 1 ≤ fuel →
    (∀ t ∈ st.deque, t.code.Scoped 0 ∧ t.id < st.next) → (∀ f ∈ st.ready, f < st.next) →
    Settled (∀ t ∈ st.deque, t.code.fits = true) (barrier fuel st) := by
  induction fuel with
  | zero => intro _ enough; omega
  | succ fuel ih =>
    intro st enough queued ready_lt
    cases deque : st.deque with
    | nil => exact ⟨fun _ => ⟨st, by simp [barrier, deque], deque⟩, fun bad => absurd nofun bad⟩
    | cons t below =>
      rw [deque] at enough queued
      rw [total_cons] at enough
      obtain ⟨⟨named, t_lt⟩, queued⟩ := List.forall_mem_cons.1 queued
      have runs := exec_task (Nat.le_of_succ_le_succ enough) named
        (rfl : ({ st with deque := below } : Store).deque = below) t_lt ready_lt
      simp only [barrier, deque]
      cases ends : walk t.code 0 [] [] with
      | none =>
        rw [ends, Agrees] at runs
        have bad : t.code.fits = false := by simp [Code.fits, Code.left, ends]
        simp [Settled, runs, bad]
      | some items =>
        rw [ends] at runs
        obtain ⟨st₁, above, returned, -, leaves⟩ := runs
        have returns : t.code.left.isSome = true := by simp [Code.left, ends]
        have less := leaves.less
        simp only [returned]
        rw [List.forall_mem_cons, ← leaves.fits_task returns, ← List.forall_mem_append,
          ← leaves.deque]
        refine @ih (st₁.finish t.id) ?_ ?_ ?_
        · simp only [Store.finish, leaves.deque, total_append, total_nil] at enough less ⊢
          omega
        · simp only [Store.finish, leaves.deque, List.forall_mem_append]
          exact ⟨fun u mem => (leaves.left u mem).2,
            fun u mem => ⟨(queued u mem).1, Nat.lt_of_lt_of_le (queued u mem).2 leaves.next_le⟩⟩
        · exact List.forall_mem_cons.2 ⟨Nat.lt_of_lt_of_le t_lt leaves.next_le, leaves.ready_lt⟩

/-- With one worker a program comes to its end exactly if it fits; otherwise one of
its `AWAIT`s enters the stealing loop. -/
theorem one_worker_awaits (code : Code) (named : code.Scoped 0) {fuel : ℕ}
    (enough : code.size ≤ fuel) : Settled (code.fits = true) (main fuel code) := by
  have runs := @exec_task fuel ⟨0, 0, code⟩ [] ⟨[], 1, []⟩ enough named rfl Nat.zero_lt_one nofun
  cases ends : walk code 0 [] [] with
  | none =>
    rw [ends, Agrees] at runs
    have bad : code.fits = false := by simp [Code.fits, Code.left, ends]
    simp [Settled, main, runs, bad]
  | some items =>
    rw [ends] at runs
    obtain ⟨st, above, returned, -, leaves⟩ := runs
    have returns : code.left.isSome = true := by simp [Code.left, ends]
    have less := leaves.less
    have deque : st.deque = above := by simpa using leaves.deque
    simp only [main, returned]
    rw [← leaves.fits_task returns, ← deque]
    refine barrier_settled fuel ?_ ?_ leaves.ready_lt
    · simp only [total_nil, ← deque] at less
      omega
    · rw [deque]
      exact fun t mem => (leaves.left t mem).2

/-- Two tasks that each create and await two others. -/
def twoByTwo : Code :=
  .future (.future .done (.await 0 .done)) (.future .done (.await 1 (.await 0 .done)))

theorem twoByTwo_ends : ∃ st, main 20 twoByTwo = .returned st ∧ st.deque = [] :=
  (one_worker_awaits twoByTwo
    (scoped_of_awaitsOnce (by simp [twoByTwo, Code.AwaitsOnce] : twoByTwo.AwaitsOnce 0 []) nofun)
    (by decide)).1 (by decide)

/-- The second future's task leaves a task behind, on top of the first future's. -/
def strayTask : Code :=
  .future .done (.future (.async .done .done) (.await 1 (.await 0 .done)))

open Tasking.Runtime in
/-- The same program as a schedule of the runtime: both futures are created, the
second is awaited and its task run, which spawns a task; then the first is awaited. -/
def straySchedule : List (ℕ × Choice) :=
  (0, .plain (.spawn none true)) :: runsOn 0 3 ++ (0, .plain (.spawn none true)) :: runsOn 0 3 ++
    (0, .plain (.await (.own 1))) :: runsOn 0 5 ++
    (0, .plain (.spawn none false)) :: runsOn 0 3 ++ (0, .plain (.finish [])) :: runsOn 0 1 ++
    (0, .plain (.await (.own 0))) :: runsOn 0 5

open Tasking.Runtime in
/-- The task left behind lies on top of the first future's and is no child of the main program,
so that `AWAIT` pops nothing and goes on to steal.  The runtime model gets to the same point. -/
theorem stray_task_blocks_await :
    strayTask.AwaitsOnce 0 [] ∧ main strayTask.size strayTask = .stealing ∧
      ((after (.makefile 1 Nat.one_pos) straySchedule).workers 0).pc = .forceReady (.own 0) .outer ∧
      ((after (.makefile 1 Nat.one_pos) straySchedule).net.futures 0).force = .ok none :=
  ⟨by simp [strayTask, Code.AwaitsOnce], by decide, by decide +kernel, by decide +kernel⟩

/-! ## Which programs fit -/

/-- Every task awaits all the tasks it creates, by their futures; `pending` are the
futures not yet awaited. -/
def Code.Strict : Code → (count : ℕ) → (pending : List ℕ) → Prop
  | .done, _, pending => pending = []
  | .async _ _, _, _ => False
  | .future child rest, count, pending =>
    child.Strict 0 [] ∧ rest.Strict (count + 1) (count :: pending)
  | .await k rest, count, pending => k < count ∧ rest.Strict count (pending.erase k)

/-- A child that leaves nothing behind. -/
def Item.tidy (k : ℕ) : Item := .mine (some k) (some 0)

/-- Tidy children are run one after the other, down to the one that is awaited. -/
theorem dig_tidy {k : ℕ} : ∀ {children : List ℕ} (ready : List ℕ), k ∈ children →
    ∃ above below, children = above ++ k :: below ∧
      dig k (children.map .tidy) ready = some (k :: above.reverse ++ ready, below.map .tidy)
  | j :: children, ready, mem => by
    by_cases this : j = k
    · subst this
      exact ⟨[], children, rfl, by simp [dig, Item.tidy]⟩
    · have deeper : k ∈ children := (List.mem_cons.1 mem).resolve_left (Ne.symm this)
      obtain ⟨above, below, split, found⟩ := dig_tidy (j :: ready) deeper
      refine ⟨j :: above, below, by rw [split, List.cons_append], ?_⟩
      have other : (some j = some k) ↔ False := by simp [this]
      rw [List.map_cons, Item.tidy, dig, if_neg other.1, if_pos rfl]
      simpa using found

theorem walk_strict {code : Code} : ∀ {count : ℕ} {pending ready children : List ℕ},
    code.Strict count pending → children.Nodup → children ⊆ pending →
    (∀ k < count, k ∈ ready ∨ k ∈ children) → (∀ k ∈ ready, k < count ∧ k ∉ children) →
    (∀ k ∈ children, k < count) →
    walk code count ready (children.map .tidy) = some [] ∧ code.tasksFit = true := by
  induction code with
  | done =>
    intro count pending ready children strict _ sub _ _ _
    have nothing : pending = [] := strict
    rw [nothing, List.subset_nil] at sub
    simp [walk, sub, Code.tasksFit]
  | async child rest => intro _ _ _ _ strict; exact strict.elim
  | future child rest childFits restFits =>
    intro count pending ready children strict nodup sub known readies bound
    have part := @childFits 0 [] [] [] strict.1 .nil (by simp) (by simp) nofun nofun
    have new : count ∉ children := fun mem => Nat.lt_irrefl _ (bound count mem)
    have left : child.left = some 0 := by
      have := part.1
      rw [List.map_nil] at this
      simp [Code.left, this]
    have whole := @restFits (count + 1) (count :: pending) ready (count :: children) strict.2
      (List.nodup_cons.2 ⟨new, nodup⟩) (List.cons_subset_cons _ sub) ?_ ?_ ?_
    · simp only [Code.tasksFit, left, part.2, whole.2]
      refine ⟨?_, rfl⟩
      rw [walk, ← Code.left, left]
      exact whole.1
    · intro k lt
      rcases Nat.lt_succ_iff_lt_or_eq.1 lt with old | rfl
      · exact (known k old).imp_right (.tail _)
      · exact .inr (.head _)
    · intro k mem
      have old := readies k mem
      exact ⟨Nat.lt_succ_of_lt old.1, List.not_mem_cons_of_ne_of_not_mem (Nat.ne_of_lt old.1) old.2⟩
    · exact List.forall_mem_cons.2
        ⟨Nat.lt_succ_self _, fun k mem => Nat.lt_succ_of_lt (bound k mem)⟩
  | await k rest ih =>
    intro count pending ready children strict nodup sub known readies bound
    by_cases set : k ∈ ready
    · have sub' : children ⊆ pending.erase k := fun j mem => by
        have other : j ≠ k := by
          rintro rfl
          exact (readies j set).2 mem
        exact (List.mem_erase_of_ne other).2 (sub mem)
      simpa [walk, set, Code.tasksFit] using ih strict.2 nodup sub' known readies bound
    · obtain ⟨above, below, rfl, found⟩ := dig_tidy ready ((known k strict.1).resolve_left set)
      obtain ⟨-, nodup', disjoint⟩ := List.nodup_append.1 nodup
      have fresh := List.nodup_cons.1 nodup'
      have := @ih count (pending.erase k) (k :: above.reverse ++ ready) below strict.2 fresh.2
        ?_ ?_ ?_ ?_
      · rw [walk, if_neg set, found]
        exact this
      · intro j mem
        have other : j ≠ k := by
          rintro rfl
          exact fresh.1 mem
        exact (List.mem_erase_of_ne other).2 (sub (List.mem_append_right _ (.tail _ mem)))
      · intro j lt
        have := known j lt
        simp only [List.mem_append, List.mem_cons, List.cons_append, List.mem_reverse] at this ⊢
        tauto
      · intro j mem
        simp only [List.mem_append, List.mem_cons, List.cons_append, List.mem_reverse] at mem
        rcases mem with rfl | mem | mem
        · exact ⟨strict.1, fresh.1⟩
        · exact ⟨bound j (List.mem_append_left _ mem),
            fun low => disjoint j mem j (.tail _ low) rfl⟩
        · have old := readies j mem
          exact ⟨old.1, fun low => old.2 (List.mem_append_right _ (.tail _ low))⟩
      · exact fun j mem => bound j (List.mem_append_right _ (.tail _ mem))

/-- Programs in which every task awaits all the tasks it creates fit. -/
theorem fits_of_strict {code : Code} (strict : code.Strict 0 []) : code.fits = true := by
  obtain ⟨walks, tasks⟩ := @walk_strict code 0 [] [] [] strict .nil (by simp) (by simp) nofun nofun
  rw [List.map_nil] at walks
  simp [Code.fits, Code.left, walks, tasks]

end Tasking.OneWorker
