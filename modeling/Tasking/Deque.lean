import Mathlib.Algebra.Group.Nat.Defs
import Mathlib.Data.Int.Notation
import Mathlib.Data.List.Induction
import Mathlib.Data.List.Perm.Subperm
import Tasking.DoublyLinked
import Tasking.Fallible

/-!
The deque of `deque.c`: a doubly linked list of task objects that ends in a dummy
node, with a stack of free task objects beside it.  The operations are over an
explicit heap; every assignment to a link is one of theirs.

`IsDeque m dq dummy xs` says which list a deque stands for.  Each operation acts on
that list as its name says, and what it returns is a list of its own
(`Op.exec_refines`).  How many tasks half of them are is read off a 32-bit counter, so
the operations are those on lists while there are fewer than `2^32` tasks
(`deque_refines_list_iff`).
-/
namespace Tasking.LinkedDeque
open Fallible DoublyLinked

/-! ## Task objects -/

/-- `NULL` dereferenced, or an assertion of `deque.c`. -/
inductive DequeFault where
  | null | argument | tailNext | dummy | lastTask
  deriving DecidableEq, Repr

abbrev Checked (α : Type) := Fallible.Checked DequeFault α

abbrev Ptr := Option ℕ

/-- The fields of `struct task` that do not link it. -/
structure TaskBody where
  parent : Ptr
  fn : Option ℕ
  start : ℤ
  cur : ℤ
  stop : ℤ
  victim : ℤ
  splittable : Bool
  hasFuture : Bool
  futures : Option ℕ
  data : List UInt8
  deriving DecidableEq, Repr

structure Task extends TaskBody where
  prev : Ptr
  next : Ptr
  deriving DecidableEq, Repr

/-- Task objects by address.  Those at `size` and above are not allocated, and hold
whatever `malloc` will find there. -/
structure Heap where
  size : ℕ
  node : ℕ → Task

def Heap.links (m : Heap) : Links ℕ := ⟨fun a => (m.node a).prev, fun a => (m.node a).next⟩

def Heap.set (m : Heap) (a : ℕ) (t : Task) : Heap := { m with node := Function.update m.node a t }

def Heap.load (m : Heap) : Ptr → Checked Task
  | none => .error (.fault .null)
  | some a => .ok (m.node a)

/-- `*p = t`. -/
def Heap.store (m : Heap) (p : Ptr) (t : Task) : Checked Heap :=
  match p with
  | none => .error (.fault .null)
  | some a => .ok (m.set a t)

/-- `p->prev = q`. -/
def Heap.setPrev (m : Heap) (p q : Ptr) : Checked Heap :=
  match p with
  | none => .error (.fault .null)
  | some a => .ok (m.set a { m.node a with prev := q })

/-- `p->next = q`. -/
def Heap.setNext (m : Heap) (p q : Ptr) : Checked Heap :=
  match p with
  | none => .error (.fault .null)
  | some a => .ok (m.set a { m.node a with next := q })

/-- `p->fn = f`. -/
def Heap.setFn (m : Heap) (p : Ptr) (f : Option ℕ) : Checked Heap :=
  match p with
  | none => .error (.fault .null)
  | some a => .ok (m.set a { m.node a with fn := f })

/-- A task object as `task_zero` leaves it; the data is not cleared. -/
def Task.zero (t : Task) : Task where
  parent := none
  prev := none
  next := none
  fn := none
  start := 0
  cur := 0
  stop := 0
  victim := 0
  splittable := false
  hasFuture := false
  futures := none
  data := t.data

def taskZero (m : Heap) (task : Ptr) : Checked Heap :=
  match task with
  | none => .error (.fault .null)
  | some a => .ok (m.set a (m.node a).zero)

def taskNew (m : Heap) : Checked (Ptr × Heap) := do
  let task := some m.size
  let m ← taskZero { m with size := m.size + 1 } task
  return (task, m)

/-! ## The operations -/

/-- Both counters are an `unsigned int`: a deque of `2^32` tasks counts none. -/
structure Deque where
  head : Ptr
  tail : Ptr
  numTasks : UInt32
  numSteals : UInt32
  freelist : Ptr
  deriving DecidableEq, Repr

def freelistPush (dq : Deque) (task : Ptr) (m : Heap) : Checked (Deque × Heap) := do
  let m ← m.setNext task dq.freelist
  return ({ dq with freelist := task }, m)

def freelistPop (dq : Deque) (m : Heap) : Checked (Ptr × Deque × Heap) := do
  if dq.freelist = none then return (none, dq, m)
  let task := dq.freelist
  let first ← m.load dq.freelist
  let m ← m.setNext task none
  return (task, { dq with freelist := first.next }, m)

def dequeNew (m : Heap) : Checked (Deque × Heap) := do
  let (dummy, m) ← taskNew m
  let m ← m.setFn dummy (some 0xCAFE)
  return (⟨dummy, dummy, 0, 0, none⟩, m)

def dequeTaskNew (dq : Deque) (m : Heap) : Checked (Ptr × Deque × Heap) := do
  if dq.freelist = none then
    let (task, m) ← taskNew m
    return (task, dq, m)
  freelistPop dq m

def dequeTaskCache (dq : Deque) (task : Ptr) (m : Heap) : Checked (Deque × Heap) := do
  check (task ≠ none) .argument
  let m ← taskZero m task
  freelistPush dq task m

def dequeEmpty (dq : Deque) : Bool := dq.head = dq.tail && dq.numTasks = 0

def dequeNumTasks (dq : Deque) : UInt32 := dq.numTasks

/-- The end of every `deque_prepend`: link the list to the head, and count its tasks. -/
def linkFront (dq : Deque) (head tail : Ptr) (len : UInt32) (m : Heap) :
    Checked (Deque × Heap) := do
  let last ← m.load tail
  check (last.next = none) .tailNext
  let m ← m.setNext tail dq.head
  let m ← m.setPrev dq.head tail
  return ({ dq with head := head, numTasks := dq.numTasks + len }, m)

/-- `deque_prepend(dq, head, tail, len)`. -/
def dequePrepend (dq : Deque) (head tail : Ptr) (len : UInt32) (m : Heap) :
    Checked (Deque × Heap) := do
  check (head ≠ none ∧ tail ≠ none) .argument
  check (0 < len) .argument
  linkFront dq head tail len m

/-- The loop that looks for the end of a list, counting its tasks in an `unsigned int`.
A list that does not end is not left within as many rounds as there are task objects. -/
def findTail (m : Heap) : ℕ → Ptr → UInt32 → Checked (Ptr × UInt32)
  | 0, _, _ => .error .disabled
  | rounds + 1, tail, n => do
    let node ← m.load tail
    if node.next ≠ none then findTail m rounds node.next (n + 1) else return (tail, n)

/-- `deque_prepend(dq, head, len)`. -/
def dequePrependLen (dq : Deque) (head : Ptr) (len : UInt32) (m : Heap) :
    Checked (Deque × Heap) := do
  check (head ≠ none) .argument
  check (0 < len) .argument
  let (tail, _) ← findTail m (m.size + 1) head 1
  linkFront dq head tail len m

/-- `deque_prepend(dq, head)`, which does not ask for a positive count. -/
def dequePrependAll (dq : Deque) (head : Ptr) (m : Heap) : Checked (Deque × Heap) := do
  check (head ≠ none) .argument
  let (tail, n) ← findTail m (m.size + 1) head 1
  linkFront dq head tail n m

def dequePush (dq : Deque) (task : Ptr) (m : Heap) : Checked (Deque × Heap) := do
  check (task ≠ none) .argument
  let m ← m.setNext task dq.head
  let m ← m.setPrev dq.head task
  return ({ dq with head := task, numTasks := dq.numTasks + 1 }, m)

/-- The part that both `deque_pop` share: take the head off. -/
def takeHead (dq : Deque) (m : Heap) : Checked (Ptr × Deque × Heap) := do
  let task := dq.head
  let node ← m.load dq.head
  let dq := { dq with head := node.next }
  let m ← m.setPrev dq.head none
  let m ← m.setNext task none
  return (task, { dq with numTasks := dq.numTasks - 1 }, m)

def dequePop (dq : Deque) (m : Heap) : Checked (Ptr × Deque × Heap) := do
  if dequeEmpty dq then return (none, dq, m)
  takeHead dq m

/-- `deque_pop(dq, parent)`. -/
def dequePopChild (dq : Deque) (parent : Ptr) (m : Heap) : Checked (Ptr × Deque × Heap) := do
  check (parent ≠ none) .argument
  if dequeEmpty dq then return (none, dq, m)
  let node ← m.load dq.head
  if node.parent ≠ parent then return (none, dq, m)
  takeHead dq m

/-- `for (i = 0; i < n; i++) task = task->prev`. -/
def walkBack (m : Heap) : ℕ → Ptr → Checked Ptr
  | 0, task => return task
  | n + 1, task => do
    let node ← m.load task
    walkBack m n node.prev

/-- The end of every steal: the tasks from `task` on were cut off in front of the
dummy, and what is left is linked to it. -/
def closeGap (dq : Deque) (task : Ptr) (m : Heap) : Checked (Deque × Heap) := do
  let dummy ← m.load dq.tail
  if dummy.prev = none then
    check (dq.head = task) .lastTask
    return ({ dq with head := dq.tail }, m)
  else
    let m ← m.setNext dummy.prev dq.tail
    return (dq, m)

def dequeSteal (dq : Deque) (m : Heap) : Checked (Ptr × Deque × Heap) := do
  if dequeEmpty dq then return (none, dq, m)
  let dummy ← m.load dq.tail
  check (dummy.fn = some 0xCAFE) .dummy
  let task := dummy.prev
  let m ← m.setNext task none
  let node ← m.load task
  let m ← m.setPrev dq.tail node.prev
  let m ← m.setPrev task none
  let (dq, m) ← closeGap dq task m
  return (task, { dq with numTasks := dq.numTasks - 1, numSteals := dq.numSteals + 1 }, m)

/-- The common body of `deque_steal_half` and `deque_steal_many`, for `n` tasks.  The
results are the first task, the last one and their number. -/
def stealTasks (dq : Deque) (n : ℕ) (m : Heap) : Checked (Ptr × Ptr × ℕ × Deque × Heap) := do
  let dummy ← m.load dq.tail
  check (dummy.fn = some 0xCAFE) .dummy
  let task ← walkBack m n dq.tail
  let m ← m.setNext dummy.prev none
  let node ← m.load task
  let m ← m.setPrev dq.tail node.prev
  let m ← m.setPrev task none
  let (dq, m) ← closeGap dq task m
  return (task, dummy.prev, n,
    { dq with numTasks := dq.numTasks - UInt32.ofNat n, numSteals := dq.numSteals + 1 }, m)

/-- Half of the tasks that are counted, and at least one.  The half of an `unsigned int`
is not negative as the `int` it is stored in. -/
def halfOf (dq : Deque) : ℕ :=
  if dq.numTasks / 2 = 0 then 1 else (dq.numTasks / 2).toNat

def atMost (n max : ℕ) : ℕ := if n > max then max else n

/-- What a steal of several tasks returns: the list's first task, and through the
pointers it is given the last task and the number of tasks. -/
structure Loot where
  task : Ptr
  tail : Option Ptr
  stolen : Option ℕ
  deriving DecidableEq, Repr

/-- Nothing was stolen, and the pointers were not written through. -/
def Loot.none : Loot := ⟨Option.none, Option.none, Option.none⟩

/-- `deque_steal_many(dq, &tail, max, &stolen)`. -/
def dequeStealManyTail (dq : Deque) (max : ℕ) (m : Heap) : Checked (Loot × Deque × Heap) := do
  if dequeEmpty dq then return (.none, dq, m)
  let (task, tail, n, dq, m) ← stealTasks dq (atMost (halfOf dq) max) m
  return (⟨task, some tail, some n⟩, dq, m)

/-- `deque_steal_many(dq, max, &stolen)`. -/
def dequeStealMany (dq : Deque) (max : ℕ) (m : Heap) : Checked (Loot × Deque × Heap) := do
  if dequeEmpty dq then return (.none, dq, m)
  let (task, _, n, dq, m) ← stealTasks dq (atMost (halfOf dq) max) m
  return (⟨task, none, some n⟩, dq, m)

/-- `deque_steal_half(dq, &tail, &stolen)`. -/
def dequeStealHalfTail (dq : Deque) (m : Heap) : Checked (Loot × Deque × Heap) := do
  if dequeEmpty dq then return (.none, dq, m)
  let (task, tail, n, dq, m) ← stealTasks dq (halfOf dq) m
  return (⟨task, some tail, some n⟩, dq, m)

/-- `deque_steal_half(dq, &stolen)`. -/
def dequeStealHalf (dq : Deque) (m : Heap) : Checked (Loot × Deque × Heap) := do
  if dequeEmpty dq then return (.none, dq, m)
  let (task, _, n, dq, m) ← stealTasks dq (halfOf dq) m
  return (⟨task, none, some n⟩, dq, m)

/-! ## Lists of task objects -/

/-- Nothing but links changed, and only those of these task objects. -/
structure Relinks (m m' : Heap) (cells : List ℕ) : Prop where
  size : m'.size = m.size
  bodies : ∀ a, (m'.node a).toTaskBody = (m.node a).toTaskBody
  others : ∀ a, a ∉ cells → m'.node a = m.node a

section Heaps

variable {m m' m'' : Heap} {cells : List ℕ} {a : ℕ} {q : Ptr}

theorem Relinks.refl : Relinks m m cells := ⟨rfl, fun _ => rfl, fun _ _ => rfl⟩

theorem Relinks.trans (left : Relinks m m' cells) (right : Relinks m' m'' cells) :
    Relinks m m'' cells where
  size := right.size.trans left.size
  bodies a := (right.bodies a).trans (left.bodies a)
  others a other := (right.others a other).trans (left.others a other)

theorem setPrev_spec (known : a ∈ cells) :
    ∃ m', m.setPrev (some a) q = .ok m' ∧ m'.links = m.links.setPrev a q ∧ Relinks m m' cells := by
  refine ⟨m.set a { m.node a with prev := q }, rfl, ?_, rfl, fun b => ?_, fun b other => ?_⟩
  · simp only [Heap.links, Heap.set, Links.setPrev, Links.mk.injEq]
    constructor <;> funext b <;> by_cases same : b = a <;> simp [same]
  · by_cases same : b = a <;> simp [Heap.set, same]
  · have differ : b ≠ a := fun same => other (same ▸ known)
    simp [Heap.set, differ]

theorem setNext_spec (known : a ∈ cells) :
    ∃ m', m.setNext (some a) q = .ok m' ∧ m'.links = m.links.setNext a q ∧ Relinks m m' cells := by
  refine ⟨m.set a { m.node a with next := q }, rfl, ?_, rfl, fun b => ?_, fun b other => ?_⟩
  · simp only [Heap.links, Heap.set, Links.setNext, Links.mk.injEq]
    constructor <;> funext b <;> by_cases same : b = a <;> simp [same]
  · by_cases same : b = a <;> simp [Heap.set, same]
  · have differ : b ≠ a := fun same => other (same ▸ known)
    simp [Heap.set, differ]

end Heaps

/-- A list by itself, from first to last. -/
structure IsList (m : Heap) (xs : List ℕ) : Prop where
  linked : Linked m.links none xs none
  distinct : xs.Nodup

/-- The deque stands for the list `xs`, and counts its tasks as far as the counter goes. -/
structure IsDeque (m : Heap) (dq : Deque) (dummy : ℕ) (xs : List ℕ) : Prop where
  head : dq.head = first xs (some dummy)
  tail : dq.tail = some dummy
  chain : IsList m (xs ++ [dummy])
  count : dq.numTasks = UInt32.ofNat xs.length
  mark : (m.node dummy).fn = some 0xCAFE

section Operations

variable {m : Heap} {dq : Deque} {dummy : ℕ} {xs : List ℕ} {ys : List ℕ}

/-- There is always a first task object, possibly the dummy. -/
theorem IsDeque.cells (is : IsDeque m dq dummy xs) :
    ∃ y ys, xs ++ [dummy] = y :: ys ∧ dq.head = some y := by
  cases xs with
  | nil => exact ⟨dummy, [], rfl, is.head⟩
  | cons x xs => exact ⟨x, xs ++ [dummy], rfl, is.head⟩

/-- The links alone tell an empty deque from one whose counter has started again. -/
theorem IsDeque.empty_iff (is : IsDeque m dq dummy xs) : dequeEmpty dq = decide (xs = []) := by
  cases xs with
  | nil => simp [dequeEmpty, is.head, is.tail, is.count, first]
  | cons x xs =>
    have differ : x ≠ dummy := by
      have distinct := is.chain.distinct
      rintro rfl
      simp at distinct
    simp [dequeEmpty, is.head, is.tail, first, differ]

theorem IsDeque.toNat_count (is : IsDeque m dq dummy xs) :
    dq.numTasks.toNat = xs.length % 2 ^ 32 := by
  rw [is.count, UInt32.toNat_ofNat']

/-- Below `2^32` tasks the count is right. -/
theorem IsDeque.counts (is : IsDeque m dq dummy xs) (few : xs.length < 2 ^ 32) :
    dq.numTasks.toNat = xs.length := by
  rw [is.toNat_count, Nat.mod_eq_of_lt few]

theorem IsDeque.link (is : IsDeque m dq dummy xs) {front : List ℕ} {z : ℕ} {after : Ptr}
    (linked : Linked m.links none (front ++ [z]) after)
    (distinct : (front ++ [z] ++ (xs ++ [dummy])).Nodup) :
    ∃ m₁ m', m.setNext (some z) dq.head = .ok m₁ ∧ m₁.setPrev dq.head (some z) = .ok m' ∧
      IsList m' (front ++ [z] ++ (xs ++ [dummy])) ∧
      Relinks m m' (front ++ [z] ++ (xs ++ [dummy])) := by
  obtain ⟨y, ys, cells, head⟩ := is.cells
  have right := is.chain.linked
  rw [cells] at distinct right ⊢
  obtain ⟨m₁, set₁, links₁, relinks₁⟩ := @setNext_spec m (front ++ [z] ++ y :: ys) z (some y)
    (by simp)
  obtain ⟨m₂, set₂, links₂, relinks₂⟩ := @setPrev_spec m₁ (front ++ [z] ++ y :: ys) y (some z)
    (by simp)
  rw [← head] at set₁ set₂
  refine ⟨m₁, m₂, set₁, set₂, ⟨?_, distinct⟩, relinks₁.trans relinks₂⟩
  · rw [links₂, links₁]
    exact linked.join right distinct

theorem dequePush_spec (is : IsDeque m dq dummy xs) {t : ℕ} (prev : (m.node t).prev = none)
    (new : t ∉ xs ++ [dummy]) :
    ∃ dq' m', dequePush dq (some t) m = .ok (dq', m') ∧ IsDeque m' dq' dummy (t :: xs) ∧
      Relinks m m' (t :: (xs ++ [dummy])) ∧ dq'.freelist = dq.freelist := by
  have distinct : ([] ++ [t] ++ (xs ++ [dummy])).Nodup :=
    List.nodup_cons.mpr ⟨new, is.chain.distinct⟩
  obtain ⟨m₁, m', set₁, set₂, chain, relinks⟩ := @IsDeque.link m dq dummy xs is [] t
    (m.node t).next ⟨prev, rfl, trivial⟩ distinct
  refine ⟨{ dq with head := some t, numTasks := dq.numTasks + 1 }, m', ?_,
    ⟨rfl, is.tail, chain, by simp [is.count, UInt32.ofNat_add], ?_⟩, relinks, rfl⟩
  · simp [dequePush, check, set₁, set₂, bind, Except.bind, pure, Except.pure]
  · exact (congrArg TaskBody.fn (relinks.bodies dummy)).trans is.mark

/-- Any `deque_prepend`, once the end of the list is known. -/
theorem linkFront_spec (is : IsDeque m dq dummy xs) (list : IsList m ys) (nonempty : ys ≠ [])
    (apart : ∀ a ∈ ys, a ∉ xs ++ [dummy]) :
    ∃ dq' m', linkFront dq (first ys none) (last none ys) (.ofNat ys.length) m = .ok (dq', m') ∧
      IsDeque m' dq' dummy (ys ++ xs) ∧ Relinks m m' (ys ++ (xs ++ [dummy])) ∧
      dq'.freelist = dq.freelist := by
  obtain ⟨front, z, rfl⟩ : ∃ front z, ys = front ++ [z] :=
    ⟨_, _, (List.dropLast_append_getLast nonempty).symm⟩
  have distinct : (front ++ [z] ++ (xs ++ [dummy])).Nodup := by
    refine List.nodup_append.mpr ⟨list.distinct, is.chain.distinct, ?_⟩
    rintro a known _ other rfl
    exact apart a known other
  obtain ⟨m₁, m', set₁, set₂, chain, relinks⟩ := is.link list.linked distinct
  have ends : (m.node z).next = none := (linked_append.mp list.linked).2.2.1
  obtain ⟨x, begins⟩ : ∃ x, first (front ++ [z]) none = some x := by
    cases front with
    | nil => exact ⟨z, rfl⟩
    | cons x front => exact ⟨x, rfl⟩
  have final : last none (front ++ [z]) = some z := by simp
  refine ⟨⟨some x, dq.tail, dq.numTasks + .ofNat (front ++ [z]).length, dq.numSteals,
    dq.freelist⟩, m', ?_, ⟨?_, is.tail, ?_, ?_, ?_⟩, relinks, rfl⟩
  · rw [begins, final]
    simp [linkFront, check, Heap.load, ends, set₁, set₂, bind, Except.bind, pure, Except.pure]
  · rw [first_append, ← begins]
    cases front <;> rfl
  · rw [List.append_assoc]
    exact chain
  · rw [is.count, @List.length_append ℕ (front ++ [z]), UInt32.ofNat_add]
    exact UInt32.add_comm ..
  · exact (congrArg TaskBody.fn (relinks.bodies dummy)).trans is.mark

/-- The loop that looks for the end of a list finds it. -/
theorem findTail_spec {x : ℕ} {before : Ptr} (linked : Linked m.links before (x :: ys) none)
    {rounds : ℕ} {n : UInt32} (enough : ys.length < rounds) :
    findTail m rounds (some x) n = .ok (last (some x) ys, n + .ofNat ys.length) := by
  induction ys generalizing x before rounds n with
  | nil =>
    obtain ⟨rounds, rfl⟩ : ∃ k, rounds = k + 1 := ⟨rounds - 1, by simp at enough; omega⟩
    have ends : (m.node x).next = none := linked.2.1
    simp [findTail, Heap.load, ends, last, bind, Except.bind, pure, Except.pure]
  | cons y ys ih =>
    obtain ⟨rounds, rfl⟩ : ∃ k, rounds = k + 1 := ⟨rounds - 1, by simp at enough; omega⟩
    have goes : (m.node x).next = some y := linked.2.1
    have found := @ih y (some x) linked.2.2 rounds (n + 1) (by simp at enough; omega)
    simp [findTail, Heap.load, goes, found, last, bind, Except.bind, UInt32.ofNat_add,
      UInt32.add_assoc, UInt32.add_comm]

/-- A list of task objects is no longer than there are task objects, which bounds the loops that
look for its end. -/
theorem IsList.length_le (list : IsList m ys) (allocated : ∀ a ∈ ys, a < m.size) :
    ys.length ≤ m.size := by
  have within : ys ⊆ List.range m.size := fun a known => List.mem_range.mpr (allocated a known)
  simpa using (List.subperm_of_subset list.distinct within).length_le

/-- What the two loops of `deque_prepend` find. -/
theorem IsList.findTail (list : IsList m ys) (nonempty : ys ≠ [])
    (allocated : ∀ a ∈ ys, a < m.size) :
    LinkedDeque.findTail m (m.size + 1) (first ys none) 1 =
      .ok (last none ys, .ofNat ys.length) := by
  have short := list.length_le allocated
  cases ys with
  | nil => exact absurd rfl nonempty
  | cons x ys =>
    simp only [List.length_cons] at short ⊢
    rw [first, findTail_spec list.linked (by omega), Nat.add_comm, UInt32.ofNat_add]
    rfl

theorem takeHead_spec {x : ℕ} (is : IsDeque m dq dummy (x :: xs)) :
    ∃ dq' m', takeHead dq m = .ok (some x, dq', m') ∧ IsDeque m' dq' dummy xs ∧ IsList m' [x] ∧
      Relinks m m' (x :: xs ++ [dummy]) ∧ dq'.freelist = dq.freelist := by
  obtain ⟨y, ys, cells⟩ : ∃ y ys, xs ++ [dummy] = y :: ys := by
    cases xs with
    | nil => exact ⟨dummy, [], rfl⟩
    | cons y ys => exact ⟨y, ys ++ [dummy], rfl⟩
  have chain := is.chain
  have head : dq.head = some x := is.head
  rw [List.cons_append, cells] at chain
  have goes : (m.node x).next = some y := chain.linked.2.1
  obtain ⟨m₁, set₁, links₁, relinks₁⟩ := @setPrev_spec m (x :: y :: ys) y none (by simp)
  obtain ⟨m₂, set₂, links₂, relinks₂⟩ := @setNext_spec m₁ (x :: y :: ys) x none (by simp)
  obtain ⟨alone, rest⟩ := chain.linked.uncons chain.distinct
  rw [← links₁, ← links₂] at alone rest
  have relinks := relinks₁.trans relinks₂
  refine ⟨{ dq with head := some y, numTasks := dq.numTasks - 1 }, m₂, ?_,
    ⟨?_, is.tail, ?_, by simp [is.count, UInt32.ofNat_add], ?_⟩, ⟨alone, by simp⟩, ?_, rfl⟩
  · simp [takeHead, Heap.load, head, goes, set₁, set₂, bind, Except.bind, pure, Except.pure]
  · have begins := @first_append ℕ none xs [dummy]
    rw [cells] at begins
    exact begins
  · rw [cells]
    exact ⟨rest, (List.nodup_cons.mp chain.distinct).2⟩
  · exact (congrArg TaskBody.fn (relinks.bodies dummy)).trans is.mark
  · rw [List.cons_append, cells]
    exact relinks

/-- Cutting off the tasks `y :: ys`, of which `z` is the last, and closing the gap. -/
theorem IsDeque.cutOff {front ys : List ℕ} {y z : ℕ} (is : IsDeque m dq dummy (front ++ y :: ys))
    (final : last none (y :: ys) = some z) :
    (m.node dummy).prev = some z ∧ ∃ m₁ m₂ m₃, m.setNext (some z) none = .ok m₁ ∧
      (m₁.node y).prev = last none front ∧
      m₁.setPrev dq.tail (last none front) = .ok m₂ ∧ m₂.setPrev (some y) none = .ok m₃ ∧
      ∃ m' head', closeGap dq (some y) m₃ = .ok ({ dq with head := head' }, m') ∧
        head' = first front (some dummy) ∧ IsList m' (front ++ [dummy]) ∧ IsList m' (y :: ys) ∧
        Relinks m m' (front ++ y :: ys ++ [dummy]) := by
  have chain := is.chain
  rw [List.append_assoc] at chain ⊢
  have cut := chain.linked.cut chain.distinct final
  -- what the cells are linked to before
  obtain ⟨-, back⟩ := linked_append.mp chain.linked
  have begins : (m.node y).prev = last none front := back.1
  have ends : (m.node dummy).prev = some z := by
    have tail := (linked_append.mp back).2.1
    obtain ⟨z', -, anyway⟩ := @last_eq_some ℕ (y :: ys) (by simp)
    rw [anyway] at tail final
    exact tail.trans final
  refine ⟨ends, ?_⟩
  have known : z ∈ front ++ (y :: ys ++ [dummy]) := by
    obtain ⟨z', mem, anyway⟩ := @last_eq_some ℕ (y :: ys) (by simp)
    obtain rfl : z' = z := Option.some.inj ((anyway none).symm.trans final)
    simp only [List.mem_append]
    exact .inr (.inl mem)
  obtain ⟨m₁, set₁, links₁, relinks₁⟩ := @setNext_spec m _ z none known
  obtain ⟨m₂, set₂, links₂, relinks₂⟩ :=
    @setPrev_spec m₁ (front ++ (y :: ys ++ [dummy])) dummy (last none front) (by simp)
  obtain ⟨m₃, set₃, links₃, relinks₃⟩ :=
    @setPrev_spec m₂ (front ++ (y :: ys ++ [dummy])) y none (by simp)
  have relinks := (relinks₁.trans relinks₂).trans relinks₃
  rw [← links₁, ← links₂, ← links₃] at cut
  obtain ⟨left, middle, right⟩ := cut
  have begins₁ : (m₁.node y).prev = last none front := by
    have same : m₁.links.prev y = m.links.prev y := by rw [links₁]; rfl
    exact same.trans begins
  refine ⟨m₁, m₂, m₃, set₁, begins₁, is.tail.symm ▸ set₂, set₃, ?_⟩
  have stolen : IsList m₃ (y :: ys) :=
    ⟨middle, (List.nodup_append.mp (List.nodup_append.mp chain.distinct).2.1).1⟩
  have gap : (m₃.node dummy).prev = last none front := right.1
  by_cases drained : front = []
  · -- every task was taken
    subst drained
    refine ⟨m₃, some dummy, ?_, rfl, ⟨right, by simp⟩, stolen, relinks⟩
    have head : dq.head = some y := is.head
    simp only [closeGap, Heap.load, is.tail, ok_bind, gap, last, if_true, check, head]
    rfl
  · obtain ⟨ws, w, rfl⟩ : ∃ ws w, front = ws ++ [w] :=
      ⟨_, _, (List.dropLast_append_getLast drained).symm⟩
    obtain ⟨frontDistinct, -, apart⟩ := List.nodup_append.mp chain.distinct
    have new : w ∉ ws :=
      fun known => (List.nodup_append.mp frontDistinct).2.2 w known w (by simp) rfl
    have differ : w ≠ dummy := apart w (by simp) dummy (by simp)
    obtain ⟨m₄, set₄, links₄, relinks₄⟩ :=
      @setNext_spec m₃ (ws ++ [w] ++ (y :: ys ++ [dummy])) w (some dummy) (by simp)
    have closed := left.close (by simpa using right) new differ
    have taken := middle.setNext_other (p := some dummy)
      (fun known => apart w (by simp) w (List.mem_append_left [dummy] known) rfl)
    rw [← links₄] at closed taken
    refine ⟨m₄, dq.head, ?_, ?_, ⟨closed, ?_⟩, ⟨taken, stolen.distinct⟩, relinks.trans relinks₄⟩
    · simp only [last_append, last_singleton] at gap
      simp only [closeGap, Heap.load, is.tail, ok_bind, gap, set₄, reduceCtorEq, if_false]
      rw [← is.tail]
      rfl
    · rw [is.head, first_append]
      cases ws <;> rfl
    · exact List.nodup_append.mpr ⟨frontDistinct, by simp, fun a known b last =>
        apart a known b (List.mem_append_right (y :: ys) last)⟩

theorem walkBack_spec {zs : List ℕ} {d : ℕ} {before after : Ptr}
    (linked : Linked m.links before (zs ++ [d]) after) :
    walkBack m zs.length (some d) = .ok (first zs (some d)) := by
  induction zs using List.reverseRecOn generalizing d after with
  | nil => rfl
  | append_singleton zs z ih =>
    obtain ⟨left, right⟩ := linked_append.mp linked
    have back : (m.node d).prev = some z := by
      rw [last_append, last_singleton] at right
      exact right.1
    rw [List.length_append, List.length_singleton, walkBack]
    simp only [Heap.load, ok_bind, back, ih left]
    rw [first_append]
    rfl

/-- The deque after a steal, and the list that was stolen. -/
structure Stolen (m m' : Heap) (dq dq' : Deque) (dummy : ℕ) (front taken : List ℕ) : Prop where
  rest : IsDeque m' dq' dummy front
  list : IsList m' taken
  relinks : Relinks m m' (front ++ taken ++ [dummy])
  freelist : dq'.freelist = dq.freelist

theorem stealTasks_spec {front ys : List ℕ} {y : ℕ}
    (is : IsDeque m dq dummy (front ++ y :: ys)) :
    ∃ dq' m', stealTasks dq (y :: ys).length m =
        .ok (some y, last none (y :: ys), (y :: ys).length, dq', m') ∧
      Stolen m m' dq dq' dummy front (y :: ys) := by
  obtain ⟨z, -, final⟩ := @last_eq_some ℕ (y :: ys) (by simp)
  obtain ⟨ends, m₁, m₂, m₃, set₁, begins, set₂, set₃, m', head', closed, head, rest, taken,
    relinks⟩ := is.cutOff (final none)
  have walked : walkBack m (y :: ys).length dq.tail = .ok (some y) := by
    have chain := is.chain.linked
    rw [List.append_assoc] at chain
    rw [is.tail, walkBack_spec (linked_append.mp chain).2]
    rfl
  refine ⟨⟨head', dq.tail, dq.numTasks - .ofNat (y :: ys).length, dq.numSteals + 1, dq.freelist⟩,
    m', ?_, ⟨head, is.tail, rest, ?_, ?_⟩, taken, relinks, rfl⟩
  · have loaded : m.load dq.tail = .ok (m.node dummy) := by rw [is.tail]; rfl
    simp only [stealTasks, loaded, ok_bind, check, is.mark, if_true, walked, ends, set₁]
    simp only [Heap.load, ok_bind, begins, set₂, set₃, closed, final]
    rfl
  · rw [is.count, List.length_append, UInt32.ofNat_add, UInt32.add_sub_cancel]
  · exact (congrArg TaskBody.fn (relinks.bodies dummy)).trans is.mark

theorem dequeSteal_spec {front : List ℕ} {y : ℕ} (is : IsDeque m dq dummy (front ++ [y])) :
    ∃ dq' m', dequeSteal dq m = .ok (some y, dq', m') ∧ Stolen m m' dq dq' dummy front [y] := by
  obtain ⟨ends, m₁, m₂, m₃, set₁, begins, set₂, set₃, m', head', closed, head, rest, taken,
    relinks⟩ := @IsDeque.cutOff m dq dummy front [] y y is rfl
  have nonempty : dequeEmpty dq = false := by simp [is.empty_iff]
  refine ⟨⟨head', dq.tail, dq.numTasks - 1, dq.numSteals + 1, dq.freelist⟩, m', ?_,
    ⟨head, is.tail, rest, ?_, ?_⟩, taken, relinks, rfl⟩
  · have loaded : m.load dq.tail = .ok (m.node dummy) := by rw [is.tail]; rfl
    simp only [dequeSteal, nonempty, Bool.false_eq_true, if_false, loaded, ok_bind, check, is.mark,
      if_true, ends, set₁]
    simp only [Heap.load, ok_bind, begins, set₂, set₃, closed]
    rfl
  · simp [is.count, UInt32.ofNat_add]
  · exact (congrArg TaskBody.fn (relinks.bodies dummy)).trans is.mark

end Operations

/-! ## Sequences of operations -/

/-- The three `deque_prepend`. -/
inductive Prepend where
  | withTail | withLength | plain
  deriving DecidableEq, Repr

/-- A call.  Those that take a list are given the pointers and numbers they ask for;
`tail` says whether a steal is asked for the last task. -/
inductive Op where
  | push (task : ℕ)
  | pop
  | popChild (parent : ℕ)
  | steal
  | stealHalf (tail : Bool)
  | stealMany (tail : Bool) (max : ℕ)
  | prepend (how : Prepend) (tasks : List ℕ)
  deriving DecidableEq, Repr

def Op.exec (op : Op) (dq : Deque) (m : Heap) : Checked (Loot × Deque × Heap) :=
  match op with
  | .push task => do
    let (dq, m) ← dequePush dq (some task) m
    return (.none, dq, m)
  | .pop => do
    let (task, dq, m) ← dequePop dq m
    return (⟨task, none, none⟩, dq, m)
  | .popChild parent => do
    let (task, dq, m) ← dequePopChild dq (some parent) m
    return (⟨task, none, none⟩, dq, m)
  | .steal => do
    let (task, dq, m) ← dequeSteal dq m
    return (⟨task, none, none⟩, dq, m)
  | .stealHalf true => dequeStealHalfTail dq m
  | .stealHalf false => dequeStealHalf dq m
  | .stealMany true max => dequeStealManyTail dq max m
  | .stealMany false max => dequeStealMany dq max m
  | .prepend .withTail tasks => do
    let (dq, m) ← dequePrepend dq (first tasks none) (last none tasks) (.ofNat tasks.length) m
    return (.none, dq, m)
  | .prepend .withLength tasks => do
    let (dq, m) ← dequePrependLen dq (first tasks none) (.ofNat tasks.length) m
    return (.none, dq, m)
  | .prepend .plain tasks => do
    let (dq, m) ← dequePrependAll dq (first tasks none) m
    return (.none, dq, m)

def splitLast (k : ℕ) (xs : List ℕ) : List ℕ × List ℕ :=
  (xs.drop (xs.length - k), xs.take (xs.length - k))

/-- What a call does to the list of tasks of a deque that counts `count` of them: the tasks
it returns, and those it leaves. -/
def Op.applyAt (parent : ℕ → Ptr) (count : ℕ) (op : Op) (xs : List ℕ) : List ℕ × List ℕ :=
  match op, xs with
  | .push task, xs => ([], task :: xs)
  | .prepend _ tasks, xs => ([], tasks ++ xs)
  | _, [] => ([], [])
  | .pop, x :: xs => ([x], xs)
  | .popChild p, x :: xs => if parent x = some p then ([x], xs) else ([], x :: xs)
  | .steal, xs => splitLast 1 xs
  | .stealHalf _, xs => splitLast (max 1 (count / 2)) xs
  | .stealMany _ limit, xs => splitLast (min (max 1 (count / 2)) limit) xs

/-- What a call is meant to do: the tasks that count are all there are. -/
def Op.apply (parent : ℕ → Ptr) (op : Op) (xs : List ℕ) : List ℕ × List ℕ :=
  op.applyAt parent xs.length xs

/-- How the returned tasks are reported. -/
def Op.report (op : Op) (returned : List ℕ) : Loot :=
  match op, returned with
  | _, [] => .none
  | .stealHalf tail, zs | .stealMany tail _, zs =>
    ⟨first zs none, if tail then some (last none zs) else none, some zs.length⟩
  | _, zs => ⟨first zs none, none, none⟩

/-- What the calls ask for: a pushed task is not linked to one before it and not in
the deque, and a list is well formed, of task objects that are not in the deque.  Where
its length is passed, it is one that an `unsigned int` can be. -/
def Op.Legal (m : Heap) (dummy : ℕ) (xs : List ℕ) : Op → Prop
  | .push task => (m.node task).prev = none ∧ task ∉ xs ++ [dummy]
  | .stealMany _ limit => 1 ≤ limit
  | .prepend how tasks => IsList m tasks ∧ tasks ≠ [] ∧ (∀ a ∈ tasks, a < m.size) ∧
      (∀ a ∈ tasks, a ∉ xs ++ [dummy]) ∧ (how ≠ .plain → tasks.length < 2 ^ 32)
  | _ => True

instance (m : Heap) (xs : List ℕ) : Decidable (IsList m xs) :=
  decidable_of_iff (Linked m.links none xs none ∧ xs.Nodup)
    ⟨fun both => ⟨both.1, both.2⟩, fun list => ⟨list.linked, list.distinct⟩⟩

instance (m : Heap) (dummy : ℕ) (xs : List ℕ) : DecidablePred (Op.Legal m dummy xs)
  | .push task => inferInstanceAs (Decidable ((m.node task).prev = none ∧ task ∉ xs ++ [dummy]))
  | .stealMany _ limit => inferInstanceAs (Decidable (1 ≤ limit))
  | .prepend how tasks => inferInstanceAs (Decidable (IsList m tasks ∧ tasks ≠ [] ∧
      (∀ a ∈ tasks, a < m.size) ∧ (∀ a ∈ tasks, a ∉ xs ++ [dummy]) ∧
      (how ≠ .plain → tasks.length < 2 ^ 32)))
  | .pop | .popChild _ | .steal | .stealHalf _ => isTrue trivial

/-- The task objects a call may link anew. -/
def Op.cells (dummy : ℕ) (xs : List ℕ) : Op → List ℕ
  | .push task => task :: (xs ++ [dummy])
  | .prepend _ tasks => tasks ++ (xs ++ [dummy])
  | _ => xs ++ [dummy]

/-- The state after a call that returns the tasks `zs` and leaves `rest`. -/
structure Op.Done (op : Op) (m m' : Heap) (dq dq' : Deque) (dummy : ℕ) (xs zs rest : List ℕ) :
    Prop where
  deque : IsDeque m' dq' dummy rest
  list : IsList m' zs
  relinks : Relinks m m' (op.cells dummy xs)
  freelist : dq'.freelist = dq.freelist

section Calls

variable {m : Heap} {dq : Deque} {dummy : ℕ} {xs : List ℕ} {parent : ℕ → Ptr}

theorem isList_nil : IsList m [] := ⟨trivial, List.nodup_nil⟩

theorem Op.Done.nothing (is : IsDeque m dq dummy xs) (op : Op) :
    op.Done m m dq dq dummy xs [] xs :=
  ⟨is, isList_nil, .refl, rfl⟩

theorem splitLast_eq {k : ℕ} (some_ : 1 ≤ k) (few : k ≤ xs.length) :
    ∃ y ys, splitLast k xs = (y :: ys, xs.take (xs.length - k)) ∧ (y :: ys).length = k ∧
      xs = xs.take (xs.length - k) ++ y :: ys := by
  have length : (xs.drop (xs.length - k)).length = k := by
    rw [List.length_drop]
    omega
  cases tail : xs.drop (xs.length - k) with
  | nil =>
    rw [tail] at length
    simp at length
    omega
  | cons y ys =>
    refine ⟨y, ys, by rw [splitLast, tail], tail ▸ length, ?_⟩
    rw [← tail, List.take_append_drop]

theorem Stolen.done {m' : Heap} {dq' : Deque} {front taken : List ℕ}
    (stolen : Stolen m m' dq dq' dummy front taken) {op : Op}
    (cells : op.cells dummy (front ++ taken) = front ++ taken ++ [dummy]) :
    op.Done m m' dq dq' dummy (front ++ taken) taken front where
  deque := stolen.rest
  list := stolen.list
  relinks := cells ▸ stolen.relinks
  freelist := stolen.freelist

theorem halfOf_eq (dq : Deque) : halfOf dq = max 1 (dq.numTasks.toNat / 2) := by
  have half : (dq.numTasks / 2).toNat = dq.numTasks.toNat / 2 := UInt32.toNat_div ..
  have zero : dq.numTasks / 2 = 0 ↔ dq.numTasks.toNat / 2 = 0 := by
    rw [← half, ← UInt32.toNat_inj]
    rfl
  rw [halfOf, half]
  split
  case isTrue one => rw [zero.mp one]; rfl
  case isFalse several =>
    have positive : dq.numTasks.toNat / 2 ≠ 0 := zero.not.mp several
    omega

/-- A deque has the tasks that a steal takes, since it never counts too many. -/
theorem IsDeque.half_le (is : IsDeque m dq dummy xs) (nonempty : xs ≠ []) :
    max 1 (dq.numTasks.toNat / 2) ≤ xs.length := by
  have counted : dq.numTasks.toNat ≤ xs.length := is.toNat_count ▸ Nat.mod_le ..
  have positive := List.length_pos_iff.mpr nonempty
  omega

theorem atMost_eq (n limit : ℕ) : atMost n limit = min n limit := by
  rw [atMost]
  split <;> omega

/-- A steal of `k` tasks by the common body. -/
theorem IsDeque.steals (is : IsDeque m dq dummy xs) {k : ℕ} (some_ : 1 ≤ k) (few : k ≤ xs.length)
    {op : Op} (cells : op.cells dummy xs = xs ++ [dummy]) :
    ∃ y ys dq' m', splitLast k xs = (y :: ys, xs.take (xs.length - k)) ∧
      stealTasks dq k m = .ok (some y, last none (y :: ys), (y :: ys).length, dq', m') ∧
      op.Done m m' dq dq' dummy xs (y :: ys) (xs.take (xs.length - k)) := by
  obtain ⟨y, ys, split, length, whole⟩ := splitLast_eq some_ few
  rw [whole] at is
  obtain ⟨dq', m', ran, stolen⟩ := stealTasks_spec is
  rw [length] at ran
  refine ⟨y, ys, dq', m', split, by rw [length]; exact ran, ?_⟩
  have done := @Stolen.done _ _ _ _ _ _ _ stolen op (by rw [← whole]; exact cells)
  rwa [← whole] at done

/-- One call: no assertion fails, the list changes as its count of tasks has it, and what
is returned is a list of its own. -/
def Op.Refines (op : Op) (m : Heap) (dq : Deque) (dummy : ℕ) (parent : ℕ → Ptr)
    (xs : List ℕ) : Prop :=
  ∃ dq' m', op.exec dq m =
      .ok (op.report (op.applyAt parent dq.numTasks.toNat xs).1, dq', m') ∧
    op.Done m m' dq dq' dummy xs (op.applyAt parent dq.numTasks.toNat xs).1
      (op.applyAt parent dq.numTasks.toNat xs).2

theorem pop_refines (is : IsDeque m dq dummy xs) :
    Op.Refines .pop m dq dummy parent xs := by
  have empty := is.empty_iff
  cases xs with
  | nil =>
    refine ⟨dq, m, ?_, .nothing is _⟩
    simp only [Op.exec, dequePop, empty, decide_true, if_true]
    rfl
  | cons x xs =>
    obtain ⟨dq', m', ran, is', alone, relinks, freelist⟩ := takeHead_spec is
    refine ⟨dq', m', ?_, is', alone, relinks, freelist⟩
    simp only [Op.exec, dequePop, empty, reduceCtorEq, decide_false, Bool.false_eq_true, if_false,
      ran, ok_bind]
    rfl

theorem popChild_refines (is : IsDeque m dq dummy xs) (parents : ∀ a, (m.node a).parent = parent a)
    {p : ℕ} :
    Op.Refines (.popChild p) m dq dummy parent xs := by
  have empty := is.empty_iff
  cases xs with
  | nil =>
    refine ⟨dq, m, ?_, .nothing is _⟩
    simp [Op.exec, dequePopChild, check, empty, Op.applyAt, Op.report, Loot.none, bind, Except.bind,
      pure, Except.pure]
  | cons x xs =>
    have head : dq.head = some x := is.head
    have known := parents x
    by_cases child : parent x = some p
    · obtain ⟨dq', m', ran, is', alone, relinks, freelist⟩ := takeHead_spec is
      refine ⟨dq', m', ?_, ?_⟩
      · simp [Op.exec, dequePopChild, check, empty, head, Heap.load, known, child, ran, Op.applyAt,
          Op.report, first, bind, Except.bind, pure, Except.pure]
      · simpa [Op.applyAt, child] using ⟨is', alone, relinks, freelist⟩
    · refine ⟨dq, m, ?_, ?_⟩
      · simp [Op.exec, dequePopChild, check, empty, head, Heap.load, known, child, Op.applyAt,
          Op.report, Loot.none, bind, Except.bind, pure, Except.pure]
      · simpa [Op.applyAt, child] using Op.Done.nothing is (.popChild p)

theorem steal_refines (is : IsDeque m dq dummy xs) :
    Op.Refines .steal m dq dummy parent xs := by
  have empty := is.empty_iff
  cases xs with
  | nil =>
    refine ⟨dq, m, ?_, .nothing is _⟩
    simp only [Op.exec, dequeSteal, empty, decide_true, if_true]
    rfl
  | cons x xs =>
    obtain ⟨y, ys, split, length, whole⟩ := @splitLast_eq (x :: xs) 1 (Nat.le_refl 1) (by simp)
    obtain rfl : ys = [] := by simpa using length
    have returned : Op.applyAt parent dq.numTasks.toNat .steal (x :: xs) = _ := split
    rw [Op.Refines, returned]
    rw [whole] at is
    obtain ⟨dq', m', ran, stolen⟩ := dequeSteal_spec is
    have done := @Stolen.done _ _ _ _ _ _ _ stolen .steal rfl
    rw [← whole] at done
    refine ⟨dq', m', ?_, done⟩
    simp only [Op.exec, ran, ok_bind]
    rfl

theorem stealHalf_refines (is : IsDeque m dq dummy xs) {tail : Bool} :
    Op.Refines (.stealHalf tail) m dq dummy parent xs := by
  have empty := is.empty_iff
  cases xs with
  | nil =>
    refine ⟨dq, m, ?_, .nothing is _⟩
    cases tail <;> simp only [Op.exec, dequeStealHalfTail, dequeStealHalf, empty, decide_true,
      if_true] <;> rfl
  | cons x xs =>
    have few := is.half_le (by simp)
    obtain ⟨y, ys, dq', m', split, ran, done⟩ := @IsDeque.steals m dq dummy (x :: xs) is
      (max 1 (dq.numTasks.toNat / 2)) (by omega) few (.stealHalf tail) rfl
    have returned : Op.applyAt parent dq.numTasks.toNat (.stealHalf tail) (x :: xs) = _ := split
    rw [Op.Refines, returned]
    refine ⟨dq', m', ?_, done⟩
    cases tail <;> simp only [Op.exec, dequeStealHalfTail, dequeStealHalf, empty, reduceCtorEq,
      decide_false, Bool.false_eq_true, if_false, halfOf_eq, ran, ok_bind] <;> rfl

theorem stealMany_refines (is : IsDeque m dq dummy xs) {tail : Bool} {limit : ℕ}
    (positive : 1 ≤ limit) :
    Op.Refines (.stealMany tail limit) m dq dummy parent xs := by
  have empty := is.empty_iff
  cases xs with
  | nil =>
    refine ⟨dq, m, ?_, .nothing is _⟩
    cases tail <;> simp only [Op.exec, dequeStealManyTail, dequeStealMany, empty, decide_true,
      if_true] <;> rfl
  | cons x xs =>
    have few := is.half_le (by simp)
    obtain ⟨y, ys, dq', m', split, ran, done⟩ := @IsDeque.steals m dq dummy (x :: xs) is
      (min (max 1 (dq.numTasks.toNat / 2)) limit) (by omega) (by omega)
      (.stealMany tail limit) rfl
    have returned : Op.applyAt parent dq.numTasks.toNat (.stealMany tail limit) (x :: xs) = _ :=
      split
    rw [Op.Refines, returned]
    refine ⟨dq', m', ?_, done⟩
    cases tail <;> simp only [Op.exec, dequeStealManyTail, dequeStealMany, empty, reduceCtorEq,
      decide_false, Bool.false_eq_true, if_false, halfOf_eq, atMost_eq, ran, ok_bind] <;> rfl

theorem Op.exec_refines (is : IsDeque m dq dummy xs) {op : Op} (legal : op.Legal m dummy xs)
    (parents : ∀ a, (m.node a).parent = parent a) :
    op.Refines m dq dummy parent xs := by
  cases op with
  | push task =>
    obtain ⟨dq', m', ran, is', relinks, freelist⟩ := dequePush_spec is legal.1 legal.2
    refine ⟨dq', m', ?_, is', isList_nil, relinks, freelist⟩
    simp only [Op.exec, ran, ok_bind]
    rfl
  | pop => exact pop_refines is
  | popChild p => exact popChild_refines is parents
  | steal => exact steal_refines is
  | stealHalf tail => exact stealHalf_refines is
  | stealMany tail limit => exact stealMany_refines is legal
  | prepend how tasks =>
    obtain ⟨list, nonempty, allocated, apart, representable⟩ := legal
    obtain ⟨dq', m', ran, is', relinks, freelist⟩ := linkFront_spec is list nonempty apart
    refine ⟨dq', m', ?_, is', isList_nil, relinks, freelist⟩
    have begins : first tasks none ≠ none := by
      cases tasks with
      | nil => exact absurd rfl nonempty
      | cons x xs => simp [first]
    have ends : last none tasks ≠ none := by
      obtain ⟨z, -, final⟩ := @last_eq_some ℕ tasks nonempty
      simp [final]
    have positive (passed : how ≠ .plain) : (0 : UInt32) < .ofNat tasks.length := by
      have some_ := List.length_pos_iff.mpr nonempty
      rw [UInt32.lt_iff_toNat_lt, UInt32.toNat_ofNat', Nat.mod_eq_of_lt (representable passed)]
      exact some_
    have found := list.findTail nonempty allocated
    cases how with
    | withTail =>
      have counted := positive (by simp)
      simp only [Op.exec, dequePrepend, check, begins, ends, ne_eq, not_false_iff, and_self,
        if_true, counted, ran, ok_bind]
      rfl
    | withLength =>
      have counted := positive (by simp)
      simp only [Op.exec, dequePrependLen, check, begins, ne_eq, not_false_iff, if_true, counted,
        found, ran, ok_bind]
      rfl
    | plain =>
      simp only [Op.exec, dequePrependAll, check, begins, ne_eq, not_false_iff, if_true, found, ran,
        ok_bind]
      rfl

end Calls

/-- Every call is legal in the state it is made in. -/
def LegalAll (dummy : ℕ) (parent : ℕ → Ptr) : List Op → Deque → Heap → List ℕ → Prop
  | [], _, _, _ => True
  | op :: ops, dq, m, xs => op.Legal m dummy xs ∧ ∀ next ∈ (op.exec dq m).toOption,
      LegalAll dummy parent ops next.2.1 next.2.2 (op.apply parent xs).2

instance decidableLegalAll (dummy : ℕ) (parent : ℕ → Ptr) : (ops : List Op) → (dq : Deque) →
    (m : Heap) → (xs : List ℕ) → Decidable (LegalAll dummy parent ops dq m xs)
  | [], _, _, _ => isTrue trivial
  | op :: ops, dq, m, xs =>
    have (next : Loot × Deque × Heap) :
        Decidable (LegalAll dummy parent ops next.2.1 next.2.2 (op.apply parent xs).2) :=
      decidableLegalAll dummy parent ops next.2.1 next.2.2 _
    inferInstanceAs (Decidable (_ ∧ ∀ next ∈ (op.exec dq m).toOption, _))

/-- The deque is a well-formed representation of `xs`, and knows how many tasks it has. -/
structure Represents (m : Heap) (dq : Deque) (dummy : ℕ) (xs : List ℕ) : Prop where
  deque : IsDeque m dq dummy xs
  count : (dequeNumTasks dq).toNat = xs.length
  empty : dequeEmpty dq = decide (xs = [])
  back : ∀ a ∈ xs ++ [dummy], ∀ b, (m.node a).next = some b → (m.node b).prev = some a
  forth : ∀ b ∈ xs ++ [dummy], ∀ a, (m.node b).prev = some a → (m.node a).next = some b

/-- Before and after every call the deque represents the list that the calls are meant to
leave; each call returns what it should, as a list of its own. -/
def RefinesAll (dummy : ℕ) (parent : ℕ → Ptr) : List Op → Deque → Heap → List ℕ → Prop
  | [], dq, m, xs => Represents m dq dummy xs
  | op :: ops, dq, m, xs => Represents m dq dummy xs ∧ ∃ dq' m',
      op.exec dq m = .ok (op.report (op.apply parent xs).1, dq', m') ∧
      IsList m' (op.apply parent xs).1 ∧
      RefinesAll dummy parent ops dq' m' (op.apply parent xs).2

/-- The calls never leave `2^32` tasks in the deque. -/
def FitsAll (parent : ℕ → Ptr) : List Op → List ℕ → Prop
  | [], xs => xs.length < 2 ^ 32
  | op :: ops, xs => xs.length < 2 ^ 32 ∧ FitsAll parent ops (op.apply parent xs).2

instance decidableFitsAll (parent : ℕ → Ptr) :
    (ops : List Op) → (xs : List ℕ) → Decidable (FitsAll parent ops xs)
  | [], xs => inferInstanceAs (Decidable (xs.length < 2 ^ 32))
  | op :: ops, xs =>
    have := decidableFitsAll parent ops (op.apply parent xs).2
    inferInstanceAs (Decidable (xs.length < 2 ^ 32 ∧ FitsAll parent ops (op.apply parent xs).2))

section Runs

variable {m : Heap} {dq : Deque} {dummy : ℕ} {xs : List ℕ} {ops : List Op} {parent : ℕ → Ptr}

theorem IsDeque.represents (is : IsDeque m dq dummy xs) (few : xs.length < 2 ^ 32) :
    Represents m dq dummy xs where
  deque := is
  count := is.counts few
  empty := is.empty_iff
  back _ known _ link := (is.chain.linked.prev_of_next known link).2
  forth _ known _ link := (is.chain.linked.next_of_prev known link).2

theorem Represents.few (represents : Represents m dq dummy xs) : xs.length < 2 ^ 32 :=
  represents.count ▸ UInt32.toNat_lt _

theorem RefinesAll.fits (refines : RefinesAll dummy parent ops dq m xs) :
    FitsAll parent ops xs := by
  induction ops generalizing m dq xs with
  | nil => exact refines.few
  | cons op ops ih =>
    obtain ⟨represents, dq', m', -, -, rest⟩ := refines
    exact ⟨represents.few, ih rest⟩

/-- As long as the count is right, a call does what it is meant to do. -/
theorem Op.exec_meant (is : IsDeque m dq dummy xs) (few : xs.length < 2 ^ 32) {op : Op}
    (legal : op.Legal m dummy xs) (parents : ∀ a, (m.node a).parent = parent a) :
    ∃ dq' m', op.exec dq m = .ok (op.report (op.apply parent xs).1, dq', m') ∧
      op.Done m m' dq dq' dummy xs (op.apply parent xs).1 (op.apply parent xs).2 := by
  have refines := op.exec_refines is legal parents
  rwa [Op.Refines, is.counts few] at refines

theorem LegalAll.refines (legal : LegalAll dummy parent ops dq m xs)
    (is : IsDeque m dq dummy xs) (parents : ∀ a, (m.node a).parent = parent a)
    (fits : FitsAll parent ops xs) : RefinesAll dummy parent ops dq m xs := by
  induction ops generalizing m dq xs with
  | nil => exact is.represents fits
  | cons op ops ih =>
    obtain ⟨now, later⟩ := legal
    obtain ⟨few, rest⟩ := fits
    obtain ⟨dq', m', ran, done⟩ := op.exec_meant is few now parents
    have parents' : ∀ a, (m'.node a).parent = parent a := fun a =>
      (congrArg TaskBody.parent (done.relinks.bodies a)).trans (parents a)
    refine ⟨is.represents few, dq', m', ran, done.list, ?_⟩
    exact ih (later _ (by rw [ran]; rfl)) done.deque parents' rest

end Runs

theorem dequeNew_spec (m : Heap) :
    ∃ dq m', dequeNew m = .ok (dq, m') ∧ IsDeque m' dq m.size [] ∧ dq.freelist = none ∧
      m'.size = m.size + 1 ∧ ∀ a, a ≠ m.size → m'.node a = m.node a := by
  refine ⟨_, _, rfl, ⟨rfl, rfl, ⟨?_, by simp⟩, rfl, ?_⟩, rfl, rfl, ?_⟩
  · simp [Linked, Heap.links, Heap.set, Task.zero, first]
  · simp [Heap.set]
  · intro a other
    simp [Heap.set, other]

/-- Any legal sequence of calls on a new deque acts as its calls are meant to, with a
well-formed deque before and after each and no assertion failing, exactly if there are never
`2^32` tasks in it: then `num_tasks` has started again from 0. -/
theorem deque_refines_list_iff {m₀ m₁ : Heap} {dq₀ : Deque} (new : dequeNew m₀ = .ok (dq₀, m₁))
    {parent : ℕ → Ptr} (parents : ∀ a, (m₁.node a).parent = parent a) (ops : List Op)
    (legal : LegalAll m₀.size parent ops dq₀ m₁ []) :
    RefinesAll m₀.size parent ops dq₀ m₁ [] ↔ FitsAll parent ops [] := by
  obtain ⟨dq, m, made, is, -⟩ := dequeNew_spec m₀
  obtain ⟨rfl, rfl⟩ : dq = dq₀ ∧ m = m₁ := by simpa using made.symm.trans new
  exact ⟨RefinesAll.fits, legal.refines is parents⟩

/-- Task objects as `task_new` leaves them. -/
def newTasks (n : ℕ) : Heap :=
  ⟨n, fun _ => ⟨⟨none, none, 0, 0, 0, 0, false, false, none, []⟩, none, none⟩⟩

theorem newTasks_parent {n : ℕ} {dq : Deque} {m : Heap} (new : dequeNew (newTasks n) = .ok (dq, m))
    (a : ℕ) : (m.node a).parent = none := by
  cases new
  by_cases same : a = n <;> simp [newTasks, Heap.set, Task.zero, same]

/-- Push three, steal one, pop one and put the stolen one back in front. -/
def stealAndReturn : List Op :=
  [.push 0, .push 1, .push 2, .stealHalf true, .pop, .prepend .plain [0]]

theorem deque_refines_list_three :
    ∃ dq₀ m₁, dequeNew (newTasks 3) = .ok (dq₀, m₁) ∧
      FitsAll (fun _ => none) stealAndReturn [] ∧
      RefinesAll 3 (fun _ => none) stealAndReturn dq₀ m₁ [] := by
  have fits : FitsAll (fun _ => none) stealAndReturn [] := by decide
  refine ⟨_, _, rfl, fits, ?_⟩
  exact (deque_refines_list_iff rfl (newTasks_parent rfl) stealAndReturn (by decide)).mpr fits

/-- The deque after a sequence of calls. -/
def execAll : List Op → Deque → Heap → Checked (Deque × Heap)
  | [], dq, m => return (dq, m)
  | op :: ops, dq, m => do
    let (_, dq, m) ← op.exec dq m
    execAll ops dq m

/-- Tasks that are pushed one after the other. -/
theorem pushes_run {m : Heap} {dq : Deque} {dummy : ℕ} {xs ts : List ℕ} {parent : ℕ → Ptr}
    (is : IsDeque m dq dummy xs) (parents : ∀ a, (m.node a).parent = parent a)
    (distinct : ts.Nodup) (loose : ∀ a ∈ ts, (m.node a).prev = none ∧ a ∉ xs ++ [dummy]) :
    LegalAll dummy parent (ts.map .push) dq m xs ∧ ∃ dq' m',
      execAll (ts.map .push) dq m = .ok (dq', m') ∧ IsDeque m' dq' dummy (ts.reverse ++ xs) ∧
      ∀ a, (m'.node a).parent = parent a := by
  induction ts generalizing m dq xs with
  | nil => exact ⟨trivial, dq, m, rfl, is, parents⟩
  | cons t ts ih =>
    obtain ⟨new, distinct⟩ := List.nodup_cons.mp distinct
    have legal : (Op.push t).Legal m dummy xs := loose t List.mem_cons_self
    obtain ⟨dq₁, m₁, ran, done⟩ := Op.exec_refines is legal parents
    have parents₁ : ∀ a, (m₁.node a).parent = parent a := fun a =>
      (congrArg TaskBody.parent (done.relinks.bodies a)).trans (parents a)
    have loose₁ : ∀ a ∈ ts, (m₁.node a).prev = none ∧ a ∉ t :: xs ++ [dummy] := by
      intro a later
      obtain ⟨prev, outside⟩ := loose a (List.mem_cons_of_mem t later)
      have cells : a ∉ t :: (xs ++ [dummy]) := by
        rintro (_ | ⟨_, inside⟩)
        · exact new later
        · exact outside inside
      exact ⟨(congrArg Task.prev (done.relinks.others a cells)).trans prev, cells⟩
    obtain ⟨legal', dq', m', rest, is', parents'⟩ := ih done.deque parents₁ distinct loose₁
    refine ⟨⟨legal, fun next found => ?_⟩, dq', m', ?_, ?_, parents'⟩
    · rw [ran] at found
      cases found
      exact legal'
    · simp only [List.map_cons, execAll, ran, ok_bind, rest]
    · rw [List.reverse_cons, List.append_assoc]
      exact is'

/-- Every task object that was allocated is pushed onto a new deque. -/
theorem pushes_all {n : ℕ} (positive : 0 < n) :
    ∃ dq₀ m₁ dq m ys, dequeNew (newTasks n) = .ok (dq₀, m₁) ∧
      LegalAll n (fun _ => none) ((List.range n).map .push) dq₀ m₁ [] ∧
      execAll ((List.range n).map .push) dq₀ m₁ = .ok (dq, m) ∧
      IsDeque m dq n (ys ++ [0]) ∧ (ys ++ [0]).length = n := by
  obtain ⟨dq₀, m₁, made, is₀, -, -, nodes⟩ := dequeNew_spec (newTasks n)
  have loose : ∀ a ∈ List.range n, (m₁.node a).prev = none ∧ a ∉ [] ++ [n] := by
    intro a within
    have other : a ≠ n := Nat.ne_of_lt (List.mem_range.mp within)
    exact ⟨congrArg Task.prev (nodes a other), by simpa using other⟩
  obtain ⟨legal, dq, m, ran, is, -⟩ :=
    pushes_run is₀ (newTasks_parent made) List.nodup_range loose
  obtain ⟨k, rfl⟩ : ∃ k, n = k + 1 := ⟨n - 1, by omega⟩
  have order : (List.range (k + 1)).reverse ++ [] =
      ((List.range k).map Nat.succ).reverse ++ [0] := by
    rw [List.range_succ_eq_map, List.reverse_cons, List.append_nil]
  rw [order] at is
  exact ⟨dq₀, m₁, dq, m, _, made, legal, ran, is, by simp⟩

theorem FitsAll.pushes {parent : ℕ → Ptr} {ts xs : List ℕ}
    (fits : FitsAll parent (ts.map .push) xs) : ts.length + xs.length < 2 ^ 32 := by
  induction ts generalizing xs with
  | nil => simpa [FitsAll] using fits
  | cons t ts ih =>
    have rest : ts.length + (xs.length + 1) < 2 ^ 32 := ih fits.2
    rw [List.length_cons]
    omega

/-- Half of the tasks of a deque that counts none is the last one. -/
theorem stealHalf_of_wrapped {m : Heap} {dq : Deque} {dummy y : ℕ} {ys : List ℕ}
    (is : IsDeque m dq dummy (ys ++ [y])) (wrapped : dq.numTasks = 0) :
    ∃ dq' m', dequeStealHalf dq m = .ok (⟨some y, none, some 1⟩, dq', m') := by
  have empty := is.empty_iff
  have half : halfOf dq = 1 := by rw [halfOf, wrapped]; rfl
  obtain ⟨dq', m', ran, -⟩ := stealTasks_spec is
  refine ⟨dq', m', ?_⟩
  simp only [dequeStealHalf, empty, half, List.append_eq_nil_iff, List.cons_ne_nil, and_false,
    decide_false, Bool.false_eq_true, if_false]
  rw [show stealTasks dq 1 m = _ from ran]
  rfl

/-- After `2^32` pushes the deque has `2^32` tasks and counts none, so that half of them is
one task. -/
theorem deque_count_wraps :
    ∃ n dq₀ m₁ dq m xs, n = 2 ^ 32 ∧ dequeNew (newTasks n) = .ok (dq₀, m₁) ∧
      LegalAll n (fun _ => none) ((List.range n).map .push) dq₀ m₁ [] ∧
      execAll ((List.range n).map .push) dq₀ m₁ = .ok (dq, m) ∧
      IsDeque m dq n xs ∧ xs.length = n ∧ dequeNumTasks dq = 0 ∧
      ¬ RefinesAll n (fun _ => none) ((List.range n).map .push) dq₀ m₁ [] ∧
      ∃ dq' m', dequeStealHalf dq m = .ok (⟨some 0, none, some 1⟩, dq', m') := by
  obtain ⟨n, size⟩ : ∃ n, n = 2 ^ 32 := ⟨_, rfl⟩
  obtain ⟨dq₀, m₁, dq, m, ys, made, legal, ran, is, length⟩ :=
    pushes_all (n := n) (by omega)
  have wrapped : dq.numTasks = 0 := by
    rw [is.count, length, size]
    rfl
  refine ⟨n, dq₀, m₁, dq, m, _, size, made, legal, ran, is, length, wrapped, fun refines => ?_,
    stealHalf_of_wrapped is wrapped⟩
  have few := refines.fits.pushes
  rw [List.length_range] at few
  omega

end Tasking.LinkedDeque
