import Tasking.Deque
import Tasking.Ownership
import Tasking.Transition

/-!
The task objects of several workers.  Each worker has a deque with its freelist and
holds the tasks that it has just obtained or is running; stolen tasks travel between
workers as lists.  Every task object is in one of these places, whatever the workers
do in which order (`Owned`).
-/
namespace Tasking.TaskObjects
open Fallible DoublyLinked LinkedDeque Ownership Transition Function

/-! ## The workers -/

/-- The two `deque_pop`. -/
inductive Pop where
  | any
  | child (parent : ℕ)
  deriving DecidableEq, Repr

def Pop.op : Pop → Op
  | .any => .pop
  | .child parent => .popChild parent

inductive Steal where
  | one
  | half (tail : Bool)
  | many (tail : Bool) (max : ℕ)
  deriving DecidableEq, Repr

def Steal.op : Steal → Op
  | .one => .steal
  | .half tail => .stealHalf tail
  | .many tail max => .stealMany tail max

/-- A steal of several tasks asks for at least one. -/
def Steal.positive : Steal → Bool
  | .many _ max => 1 ≤ max
  | _ => true

/-- What the thief is told; that `deque_steal` returns one task is known. -/
def Steal.pack (how : Steal) (loot : Loot) : Option Loot :=
  if loot.task = none then none
  else if how = .one then some ⟨loot.task, some loot.task, some 1⟩
  else some loot

/-- The thief calls one of the `deque_prepend` with what it was told. -/
def adopt (how : Prepend) (dq : Deque) (loot : Loot) (m : Heap) :
    LinkedDeque.Checked (Deque × Heap) :=
  match how, loot.tail, loot.stolen with
  | .withTail, some tail, some n => dequePrepend dq loot.task tail (.ofNat n) m
  | .withLength, _, some n => dequePrependLen dq loot.task (.ofNat n) m
  | .plain, _, _ => dequePrependAll dq loot.task m
  | _, _, _ => .error .disabled

/-- Some task as the whole of a list. -/
def single (task : Ptr) : Loot := ⟨task, some task, some 1⟩

/-- The copy of a task that gets the iterations from `split` on, with the handle of a
future of its own if it has one. -/
def splitCopy (task : Task) (split : ℤ) (future : List UInt8) : Task :=
  let dup := { task with start := split, cur := split }
  if dup.hasFuture then
    { dup with data := future ++ dup.data.drop future.length, futures := none }
  else dup

/-- `split_loop` but for the send. -/
def splitLoop (dq : Deque) (task : Ptr) (split : ℤ) (future : List UInt8) (m : Heap) :
    LinkedDeque.Checked (Ptr × Deque × Heap) := do
  let (dup, dq, m) ← dequeTaskNew dq m
  let this ← m.load task
  let m ← m.store dup (splitCopy this split future)
  let m ← m.store task { this with stop := split }
  return (dup, dq, m)

/-- `held` are the tasks a worker has just obtained or popped, or is running; `sent`
are the lists in transit. -/
structure State (ι : Type) where
  heap : Heap
  deque : ι → Option Deque
  held : ι → List ℕ
  sent : ℕ → Option Loot

section Acts

variable {ι : Type} [DecidableEq ι]

namespace State

def own (s : State ι) (w : ι) : LinkedDeque.Checked Deque :=
  match s.deque w with
  | none => .error .disabled
  | some dq => .ok dq

def message (s : State ι) (k : ℕ) : LinkedDeque.Checked Loot :=
  match s.sent k with
  | none => .error .disabled
  | some loot => .ok loot

def put (s : State ι) (w : ι) (dq : Deque) (m : Heap) : State ι :=
  { s with heap := m, deque := update s.deque w (some dq) }

def hold (s : State ι) (w : ι) (task : Ptr) : State ι :=
  { s with held := update s.held w (task.toList ++ s.held w) }

def release (s : State ι) (w : ι) (a : ℕ) : State ι :=
  { s with held := update s.held w ((s.held w).erase a) }

def post (s : State ι) (k : ℕ) (loot : Option Loot) : State ι :=
  { s with sent := update s.sent k loot }

def create (w : ι) (s : State ι) : LinkedDeque.Checked (State ι) := do
  await (s.deque w = none)
  let (dq, m) ← dequeNew s.heap
  return s.put w dq m

def taskNew (w : ι) (s : State ι) : LinkedDeque.Checked (State ι) := do
  let dq ← s.own w
  let (task, dq, m) ← dequeTaskNew dq s.heap
  return (s.put w dq m).hold w task

/-- The worker writes to a task it holds; only the deques write its links. -/
def fill (w : ι) (a : ℕ) (body : TaskBody) (s : State ι) : LinkedDeque.Checked (State ι) := do
  await (a ∈ s.held w)
  return { s with heap := s.heap.set a { s.heap.node a with toTaskBody := body } }

def push (w : ι) (a : ℕ) (s : State ι) : LinkedDeque.Checked (State ι) := do
  await (a ∈ s.held w)
  let dq ← s.own w
  let (_, dq, m) ← (Op.push a).exec dq s.heap
  return (s.put w dq m).release w a

def pop (w : ι) (how : Pop) (s : State ι) : LinkedDeque.Checked (State ι) := do
  let dq ← s.own w
  let (loot, dq, m) ← how.op.exec dq s.heap
  return (s.put w dq m).hold w loot.task

def steal (w : ι) (how : Steal) (k : ℕ) (s : State ι) : LinkedDeque.Checked (State ι) := do
  await (s.sent k = none ∧ how.positive)
  let dq ← s.own w
  let (loot, dq, m) ← how.op.exec dq s.heap
  return (s.put w dq m).post k (how.pack loot)

def prepend (w : ι) (how : Prepend) (k : ℕ) (s : State ι) : LinkedDeque.Checked (State ι) := do
  let dq ← s.own w
  let loot ← s.message k
  let (dq, m) ← adopt how dq loot s.heap
  return (s.put w dq m).post k none

/-- What a thief does with the tasks it receives: those after the first go to its
deque. -/
def receive (w : ι) (k : ℕ) (s : State ι) : LinkedDeque.Checked (State ι) := do
  let loot ← s.message k
  let node ← s.heap.load loot.task
  if node.next ≠ none then
    let s ← s.prepend w .plain k
    s.pop w .any
  else return (s.post k none).hold w loot.task

/-- A task is sent by itself, as `async_action` does. -/
def send (w : ι) (a k : ℕ) (s : State ι) : LinkedDeque.Checked (State ι) := do
  await (a ∈ s.held w ∧ s.sent k = none)
  return (s.release w a).post k (some (single (some a)))

def split (w : ι) (a : ℕ) (at_ : ℤ) (future : List UInt8) (k : ℕ) (s : State ι) :
    LinkedDeque.Checked (State ι) := do
  await (a ∈ s.held w ∧ s.sent k = none)
  let dq ← s.own w
  let (dup, dq, m) ← splitLoop dq (some a) at_ future s.heap
  return (s.put w dq m).post k (some (single dup))

def cache (w : ι) (a : ℕ) (s : State ι) : LinkedDeque.Checked (State ι) := do
  await (a ∈ s.held w)
  let dq ← s.own w
  let (dq, m) ← dequeTaskCache dq (some a) s.heap
  return (s.put w dq m).release w a

end State

inductive Act (ι : Type) where
  | create (w : ι)
  | taskNew (w : ι)
  | fill (w : ι) (task : ℕ) (body : TaskBody)
  | push (w : ι) (task : ℕ)
  | pop (w : ι) (how : Pop)
  | steal (w : ι) (how : Steal) (k : ℕ)
  | prepend (w : ι) (how : Prepend) (k : ℕ)
  | receive (w : ι) (k : ℕ)
  | send (w : ι) (task k : ℕ)
  | split (w : ι) (task : ℕ) (at_ : ℤ) (future : List UInt8) (k : ℕ)
  | cache (w : ι) (task : ℕ)

def step : Act ι → State ι → LinkedDeque.Checked (State ι)
  | .create w => State.create w
  | .taskNew w => State.taskNew w
  | .fill w a body => State.fill w a body
  | .push w a => State.push w a
  | .pop w how => State.pop w how
  | .steal w how k => State.steal w how k
  | .prepend w how k => State.prepend w how k
  | .receive w k => State.receive w k
  | .send w a k => State.send w a k
  | .split w a at_ future k => State.split w a at_ future k
  | .cache w a => State.cache w a

/-- No task object has been allocated; the memory holds anything. -/
def State.initial (junk : ℕ → Task) : State ι where
  heap := ⟨0, junk⟩
  deque _ := none
  held _ := []
  sent _ := none

def system (junk : ℕ → Task) : Transition.System (State ι) :=
  .ofMoves (State.initial junk) step

end Acts

/-! ## Where the task objects are -/

/-- A task that nobody has written to since it was obtained.  Nothing is said of `victim`,
which a thief sets, nor of the data. -/
structure Clean (t : Task) : Prop where
  parent : t.parent = none
  prev : t.prev = none
  next : t.next = none
  fn : t.fn = none
  futures : t.futures = none
  start : t.start = 0
  cur : t.cur = 0
  stop : t.stop = 0
  splittable : t.splittable = false
  hasFuture : t.hasFuture = false

theorem clean_of_zero {t : Task} (zero : t = t.zero) : Clean t := by
  rw [zero]
  exact ⟨rfl, rfl, rfl, rfl, rfl, rfl, rfl, rfl, rfl, rfl⟩

/-- A stack of free task objects: zero but for the link to the next one. -/
def IsFree (m : Heap) : Ptr → List ℕ → Prop
  | list, [] => list = none
  | list, a :: xs => list = some a ∧ m.node a = { (m.node a).zero with next := (m.node a).next } ∧
      IsFree m (m.node a).next xs

/-- The thief was told the truth about the list `xs`. -/
structure Carries (m : Heap) (loot : Loot) (xs : List ℕ) : Prop where
  list : IsList m xs
  nonempty : xs ≠ []
  task : loot.task = first xs none
  tail : ∀ p ∈ loot.tail, p = last none xs
  stolen : ∀ n ∈ loot.stolen, n = xs.length
  /-- The number is an `int` when the tasks are stolen, and then an `unsigned int`. -/
  short : xs.length < 2 ^ 32

inductive Place (ι : Type) where
  | deque (w : ι)
  | free (w : ι)
  | held (w : ι)
  | sent (k : ℕ)
  deriving DecidableEq

/-- What a place is known by: the pointers from which its task objects are found. -/
inductive Root where
  | deque (dq : Option Deque)
  | free (list : Ptr)
  | held (tasks : List ℕ)
  | sent (loot : Option Loot)

def Root.Holds (m : Heap) : Root → List ℕ → Prop
  | .deque none, xs => xs = []
  | .deque (some dq), xs => ∃ ys dummy, xs = ys ++ [dummy] ∧ IsDeque m dq dummy ys
  | .free list, xs => IsFree m list xs
  | .held tasks, xs => xs = tasks ∧ ∀ a ∈ tasks, IsList m [a]
  | .sent none, xs => xs = []
  | .sent (some loot), xs => Carries m loot xs

section Places

variable {ι : Type}

/-- The deque proper and its freelist are two places. -/
def State.root (s : State ι) : Place ι → Root
  | .deque w => .deque ((s.deque w).map fun dq => { dq with freelist := none })
  | .free w => .free ((s.deque w).bind Deque.freelist)
  | .held w => .held (s.held w)
  | .sent k => .sent (s.sent k)

/-- `content` says where every task object is. -/
structure Owned (s : State ι) (content : Place ι → List ℕ) : Prop where
  separate : Separate content
  allocated : ∀ a, a < s.heap.size ↔ ∃ p, a ∈ content p
  holds : ∀ p, (s.root p).Holds s.heap (content p)

variable {m m' : Heap} {xs : List ℕ}

theorem IsList.congr (list : IsList m xs) (same : ∀ a ∈ xs, (m'.node a).prev = (m.node a).prev ∧
    (m'.node a).next = (m.node a).next) : IsList m' xs :=
  ⟨list.linked.congr same, list.distinct⟩

theorem IsFree.congr {list : Ptr} (free : IsFree m list xs)
    (same : ∀ a ∈ xs, m'.node a = m.node a) : IsFree m' list xs := by
  induction xs generalizing list with
  | nil => exact free
  | cons a xs ih =>
    obtain ⟨begins, clean, rest⟩ := free
    have here := same a List.mem_cons_self
    refine ⟨begins, by rw [here]; exact clean, ?_⟩
    rw [here]
    exact ih rest fun b later => same b (List.mem_cons_of_mem a later)

/-- Only the task objects of the place matter. -/
theorem Root.Holds.congr {r : Root} (holds : r.Holds m xs)
    (same : ∀ a ∈ xs, m'.node a = m.node a) : r.Holds m' xs := by
  have links : ∀ a ∈ xs, (m'.node a).prev = (m.node a).prev ∧
      (m'.node a).next = (m.node a).next := fun a known => by rw [same a known]; exact ⟨rfl, rfl⟩
  cases r with
  | deque dq =>
    cases dq with
    | none => exact holds
    | some dq =>
      obtain ⟨ys, dummy, rfl, is⟩ := holds
      refine ⟨ys, dummy, rfl, is.head, is.tail, IsList.congr is.chain links, is.count, ?_⟩
      rw [same dummy (by simp)]
      exact is.mark
  | free list => exact IsFree.congr holds same
  | held tasks =>
    obtain ⟨rfl, lists⟩ := holds
    refine ⟨rfl, fun a known => IsList.congr (lists a known) ?_⟩
    intro b alone
    obtain rfl : b = a := by simpa using alone
    exact links b known
  | sent loot =>
    cases loot with
    | none => exact holds
    | some loot =>
      exact ⟨IsList.congr holds.list links, holds.nonempty, holds.task, holds.tail, holds.stolen,
        holds.short⟩

variable {s s' : State ι} {content content' : Place ι → List ℕ} {p q : Place ι} {a : ℕ}

theorem Owned.disjoint (owned : Owned s content) (differ : p ≠ q) (here : a ∈ content p) :
    a ∉ content q :=
  fun there => owned.separate.disjoint p q differ here there

/-- Only the places that change need to be looked at. -/
theorem Owned.step (owned : Owned s content) (separate : Separate content')
    (allocated : ∀ a, a < s'.heap.size ↔ ∃ p, a ∈ content' p)
    (changed : Place ι → Prop) (new : ∀ r, changed r → (s'.root r).Holds s'.heap (content' r))
    (others : ∀ r, ¬ changed r → content' r = content r ∧ s'.root r = s.root r ∧
      ∀ a ∈ content r, s'.heap.node a = s.heap.node a) : Owned s' content' where
  separate := separate
  allocated := allocated
  holds r := by
    by_cases here : changed r
    · exact new r here
    · obtain ⟨sameContent, sameRoot, sameNodes⟩ := others r here
      rw [sameContent, sameRoot]
      exact (owned.holds r).congr sameNodes

/-! ### What is known of a place -/

variable {w : ι} {k : ℕ} {dq : Deque}

theorem Owned.deque (owned : Owned s content) (known : s.deque w = some dq) :
    ∃ ys dummy, content (.deque w) = ys ++ [dummy] ∧ IsDeque s.heap dq dummy ys := by
  have holds := owned.holds (.deque w)
  simp only [State.root, known] at holds
  obtain ⟨ys, dummy, split, is⟩ := holds
  exact ⟨ys, dummy, split, is.head, is.tail, is.chain, is.count, is.mark⟩

theorem Owned.unused (owned : Owned s content) (unused : s.sent k = none) :
    content (.sent k) = [] := by
  have holds := owned.holds (.sent k)
  rw [State.root, unused] at holds
  exact holds

theorem Owned.held (owned : Owned s content) : content (.held w) = s.held w :=
  (owned.holds (.held w)).1

theorem Owned.alone (owned : Owned s content) (known : a ∈ s.held w) : IsList s.heap [a] :=
  (owned.holds (.held w)).2 a known

theorem Owned.free (owned : Owned s content) (known : s.deque w = some dq) :
    IsFree s.heap dq.freelist (content (.free w)) := by
  have holds := owned.holds (.free w)
  rw [State.root, known] at holds
  exact holds

theorem Owned.message (owned : Owned s content) {loot : Loot} (known : s.sent k = some loot) :
    Carries s.heap loot (content (.sent k)) := by
  have holds := owned.holds (.sent k)
  rw [State.root, known] at holds
  exact holds

def Owns (s : State ι) : Prop := ∃ content, Owned s content

theorem ensures_own {β : Type} {next : Deque → LinkedDeque.Checked β}
    {tolerated : DequeFault → Prop} {post : β → Prop}
    (then_ : ∀ dq, s.deque w = some dq → Ensures tolerated (next dq) post) :
    Ensures tolerated (s.own w >>= next) post := by
  rw [State.own]
  cases known : s.deque w with
  | none => exact ensures_disabled
  | some dq => exact then_ dq known

theorem ensures_message {β : Type} {next : Loot → LinkedDeque.Checked β}
    {tolerated : DequeFault → Prop} {post : β → Prop}
    (then_ : ∀ loot, s.sent k = some loot → Ensures tolerated (next loot) post) :
    Ensures tolerated (s.message k >>= next) post := by
  rw [State.message]
  cases known : s.sent k with
  | none => exact ensures_disabled
  | some loot => exact then_ loot known

end Places

/-! ## Moving task objects -/

section Moves

variable {ι : Type} [DecidableEq ι] {s s' : State ι} {content content' : Place ι → List ℕ}
  {p q : Place ι} {xs ys : List ℕ} {a : ℕ} {future : List UInt8} {dummy : ℕ} {at_ : ℤ} {list : Ptr}

theorem Owned.exchange (owned : Owned s content) (differ : p ≠ q)
    (same : (xs ++ ys).Perm (content p ++ content q)) (size : s'.heap.size = s.heap.size)
    (nodes : ∀ a, a ∉ content p → a ∉ content q → s'.heap.node a = s.heap.node a)
    (roots : ∀ r, r ≠ p → r ≠ q → s'.root r = s.root r)
    (left : (s'.root p).Holds s'.heap xs) (right : (s'.root q).Holds s'.heap ys) :
    Owned s' (exchange content p xs q ys) := by
  refine owned.step (owned.separate.exchange differ same) ?_ (fun r => r = p ∨ r = q) ?_ ?_
  · intro a
    rw [size, owned.allocated, mem_exchange differ same]
  · rintro r (rfl | rfl)
    · rwa [exchange_left differ]
    · rwa [exchange_right]
  · intro r away
    rw [not_or] at away
    refine ⟨exchange_other away.1 away.2, roots r away.1 away.2, fun a known => ?_⟩
    exact nodes a (owned.disjoint away.1 known) (owned.disjoint away.2 known)

theorem Owned.add (owned : Owned s content) (same : xs.Perm (s.heap.size :: content p))
    (size : s'.heap.size = s.heap.size + 1)
    (nodes : ∀ a, a ≠ s.heap.size → a ∉ content p → s'.heap.node a = s.heap.node a)
    (roots : ∀ r, r ≠ p → s'.root r = s.root r) (here : (s'.root p).Holds s'.heap xs) :
    Owned s' (update content p xs) := by
  have new : ∀ r, s.heap.size ∉ content r := by
    intro r known
    exact Nat.lt_irrefl _ ((owned.allocated _).mpr ⟨r, known⟩)
  refine owned.step (owned.separate.add new same) ?_ (fun r => r = p) ?_ ?_
  · intro a
    rw [size, Nat.lt_succ_iff_lt_or_eq, owned.allocated]
    constructor
    · rintro (⟨r, known⟩ | rfl)
      · by_cases moved : r = p
        · subst moved
          exact ⟨r, by simp [same.mem_iff, known]⟩
        · exact ⟨r, by simpa [moved] using known⟩
      · exact ⟨p, by simp [same.mem_iff]⟩
    · rintro ⟨r, known⟩
      by_cases moved : r = p
      · subst moved
        rw [update_self, same.mem_iff, List.mem_cons] at known
        rcases known with rfl | known
        · exact .inr rfl
        · exact .inl ⟨r, known⟩
      · rw [update_of_ne moved] at known
        exact .inl ⟨r, known⟩
  · rintro r rfl
    rwa [update_self]
  · intro r away
    refine ⟨update_of_ne away xs content, roots r away, fun a known => nodes a ?_ ?_⟩
    · rintro rfl
      exact new r known
    · exact owned.disjoint away known

/-! ## The places after an act -/

variable {w : ι} {dq dq' : Deque} {m : Heap} {k : ℕ} {r : Place ι} {task : Ptr} {loot : Option Loot}

theorem root_put (known : s.deque w = some dq) (freelist : dq'.freelist = dq.freelist)
    (other : r ≠ .deque w) : (s.put w dq' m).root r = s.root r := by
  cases r with
  | deque v =>
    have differ : v ≠ w := fun same => other (same ▸ rfl)
    simp [State.root, State.put, differ]
  | free v =>
    by_cases same : v = w
    · subst same
      simp [State.root, State.put, known, freelist]
    · simp [State.root, State.put, same]
  | held v => rfl
  | sent k => rfl

theorem root_put_free (known : s.deque w = some dq) (other : r ≠ .free w) :
    (s.put w { dq with freelist := list } m).root r = s.root r := by
  cases r with
  | free v =>
    have differ : v ≠ w := fun same => other (same ▸ rfl)
    simp [State.root, State.put, differ]
  | deque v =>
    by_cases same : v = w
    · subst same
      simp [State.root, State.put, known]
    · simp [State.root, State.put, same]
  | held v => rfl
  | sent k => rfl

theorem root_hold (other : r ≠ .held w) : (s.hold w task).root r = s.root r := by
  cases r with
  | held v =>
    have differ : v ≠ w := fun same => other (same ▸ rfl)
    simp [State.root, State.hold, differ]
  | _ => rfl

theorem root_release (other : r ≠ .held w) : (s.release w a).root r = s.root r := by
  cases r with
  | held v =>
    have differ : v ≠ w := fun same => other (same ▸ rfl)
    simp [State.root, State.release, differ]
  | _ => rfl

omit [DecidableEq ι] in
theorem root_post (other : r ≠ .sent k) : (s.post k loot).root r = s.root r := by
  cases r with
  | sent j =>
    have differ : j ≠ k := fun same => other (same ▸ rfl)
    simp [State.root, State.post, differ]
  | _ => rfl

/-! ## Acts on the deque -/

/-- After a call the deque has the tasks `rest`; the other task objects are at `q`. -/
theorem Owned.call (owned : Owned s content) (known : s.deque w = some dq)
    (split : content (.deque w) = ys ++ [dummy]) {op : Op} {zs rest : List ℕ}
    (done : op.Done s.heap m dq dq' dummy ys zs rest) (q : Place ι) (xs : List ℕ)
    (differ : .deque w ≠ q)
    (cells : ∀ a ∈ op.cells dummy ys, a ∈ content (.deque w) ∨ a ∈ content q) (heap : s'.heap = m)
    (roots : ∀ r, r ≠ q → s'.root r = (s.put w dq' m).root r)
    (same : (rest ++ xs).Perm (ys ++ content q)) (right : (s'.root q).Holds m xs) : Owns s' := by
  subst heap
  refine ⟨_, @Owned.exchange _ _ _ _ _ _ _ (rest ++ [dummy]) _ owned differ ?_ done.relinks.size ?_
    ?_ ?_ right⟩
  · rw [split, List.append_assoc, List.append_assoc]
    exact List.perm_middle.trans ((same.cons dummy).trans List.perm_middle.symm)
  · intro a outside outside'
    exact done.relinks.others a fun known => (cells a known).elim outside outside'
  · intro r other other'
    rw [roots r other', root_put known done.freelist other]
  · rw [roots _ differ]
    simp only [State.root, State.put, update_self]
    exact ⟨rest, dummy, rfl, done.deque.head, done.deque.tail, done.deque.chain, done.deque.count,
      done.deque.mark⟩

omit [DecidableEq ι] in
theorem Owned.still (owned : Owned s content) (known : a ∈ s.held w)
    (same : m.node a = s.heap.node a) : IsList m [a] := by
  apply IsList.congr (owned.alone known)
  intro b alone
  obtain rfl : b = a := by simpa using alone
  rw [same]
  exact ⟨rfl, rfl⟩

omit [DecidableEq ι] in
/-- The tasks that are left when one is given away. -/
theorem Owned.left (owned : Owned s content)
    (same : ∀ b, b ≠ a → b ∈ s.held w → m.node b = s.heap.node b) :
    (Root.held ((s.held w).erase a)).Holds m ((s.held w).erase a) := by
  refine ⟨rfl, fun b left => ?_⟩
  have distinct := owned.separate.nodup (.held w)
  rw [owned.held] at distinct
  obtain ⟨other, before⟩ := distinct.mem_erase_iff.mp left
  exact owned.still before (same b other before)

theorem Pop.cells (how : Pop) (dummy : ℕ) : how.op.cells dummy ys = ys ++ [dummy] := by
  cases how <;> rfl

theorem Pop.report_task (how : Pop) (zs : List ℕ) : (how.op.report zs).task = first zs none := by
  cases how <;> cases zs <;> rfl

/-- A pop returns the first task or nothing. -/
theorem Pop.apply_spec (how : Pop) (parent : ℕ → Ptr) (count : ℕ) (ys : List ℕ) :
    ys = (how.op.applyAt parent count ys).1 ++ (how.op.applyAt parent count ys).2 ∧
      (how.op.applyAt parent count ys).1.length ≤ 1 := by
  cases ys with
  | nil => cases how <;> simp [Pop.op, Op.applyAt]
  | cons y rest =>
    cases how with
    | any => simp [Pop.op, Op.applyAt]
    | child p => by_cases child : parent y = some p <;> simp [Pop.op, Op.applyAt, child]

theorem Pop.exec_spec (how : Pop) (is : IsDeque m dq dummy ys) :
    ∃ zs rest dq' m', how.op.exec dq m = .ok (how.op.report zs, dq', m') ∧
      how.op.Done m m' dq dq' dummy ys zs rest ∧ ys = zs ++ rest ∧ zs.length ≤ 1 := by
  have legal : how.op.Legal m dummy ys := by cases how <;> trivial
  obtain ⟨dq', m', ran, done⟩ := @Op.exec_refines _ _ _ _
    (fun a => (m.node a).parent) is how.op legal fun _ => rfl
  exact ⟨_, _, dq', m', ran, done, how.apply_spec _ _ ys⟩

theorem first_toList {zs : List ℕ} (short : zs.length ≤ 1) : (first zs none).toList = zs := by
  cases zs with
  | nil => rfl
  | cons z zs =>
    obtain rfl : zs = [] := by simpa using short
    rfl

theorem pop_owns (owned : Owned s content) (how : Pop) :
    Ensures (fun _ => False) (s.pop w how) Owns := by
  refine ensures_own fun dq known => ?_
  obtain ⟨ys, dummy, split, is⟩ := owned.deque known
  obtain ⟨zs, rest, dq', m, ran, done, rfl, short⟩ := how.exec_spec is
  have cells : how.op.cells dummy (zs ++ rest) = content (.deque w) := by rw [how.cells, split]
  have others : ∀ a, a ∉ content (.deque w) → m.node a = s.heap.node a :=
    fun a outside => done.relinks.others a (cells ▸ outside)
  rw [ran, ok_bind]
  simp only [how.report_task, ensures_pure]
  apply owned.call known split done (.held w) (zs ++ s.held w) (by simp)
    (fun a known => .inl (cells ▸ known)) rfl (fun r other => root_hold other)
  · rw [owned.held, ← List.append_assoc]
    exact List.perm_append_comm.append_right _
  · simp only [State.root, State.hold, State.put, update_self, first_toList short]
    refine ⟨rfl, fun a known => ?_⟩
    rcases List.mem_append.mp known with popped | before
    · obtain ⟨z, rfl⟩ : ∃ z, zs = [z] := List.length_eq_one_iff.mp
        (Nat.le_antisymm short (List.length_pos_of_mem popped))
      obtain rfl : a = z := by simpa using popped
      exact done.list
    · exact owned.still before (others a (owned.disjoint (by simp) (owned.held ▸ before)))

theorem push_owns (owned : Owned s content) : Ensures (fun _ => False) (s.push w a) Owns := by
  rw [State.push, ensures_bind, ensures_await]
  refine fun held => ensures_own fun dq known => ?_
  obtain ⟨ys, dummy, split, is⟩ := owned.deque known
  have new : a ∉ ys ++ [dummy] := split ▸ owned.disjoint (by simp) (owned.held ▸ held)
  obtain ⟨dq', m, ran, done⟩ := @Op.exec_refines _ _ _ _
    (fun a => (s.heap.node a).parent) is (.push a) ⟨(owned.alone held).linked.1, new⟩ fun _ => rfl
  rw [ran, ok_bind]
  apply owned.call known split done (.held w) ((s.held w).erase a) (by simp) ?_ rfl
    (fun r other => root_release other)
  · rw [owned.held]
    exact List.perm_middle.symm.trans ((List.perm_cons_erase held).symm.append_left ys)
  · simp only [State.root, State.release, State.put, update_self]
    refine owned.left fun b other before => done.relinks.others b ?_
    rw [Op.cells, List.mem_cons, ← split, not_or]
    exact ⟨other, owned.disjoint (by simp) (owned.held ▸ before)⟩
  · intro b known
    rcases List.mem_cons.mp known with rfl | inside
    · exact .inr (owned.held ▸ held)
    · exact .inl (split ▸ inside)

/-- A steal returns tasks from the end, and at most half of those a counter can count. -/
theorem Steal.apply_spec (how : Steal) (parent : ℕ → Ptr) {count : ℕ} (counted : count < 2 ^ 32)
    (ys : List ℕ) :
    ys = (how.op.applyAt parent count ys).2 ++ (how.op.applyAt parent count ys).1 ∧
      (how = .one → (how.op.applyAt parent count ys).1.length ≤ 1) ∧
      (how.op.applyAt parent count ys).1.length < 2 ^ 32 := by
  cases ys with
  | nil => cases how <;> simp [Steal.op, Op.applyAt]
  | cons y rest => cases how <;> simp [Steal.op, Op.applyAt, splitLast] <;> omega

theorem Steal.exec_spec (how : Steal) (positive : how.positive) (is : IsDeque m dq dummy ys) :
    ∃ zs rest dq' m', how.op.exec dq m = .ok (how.op.report zs, dq', m') ∧
      how.op.Done m m' dq dq' dummy ys zs rest ∧ ys = rest ++ zs ∧
      (how = .one → zs.length ≤ 1) ∧ zs.length < 2 ^ 32 := by
  have legal : how.op.Legal m dummy ys := by
    cases how with
    | many tail max => exact of_decide_eq_true positive
    | _ => trivial
  obtain ⟨dq', m', ran, done⟩ := @Op.exec_refines _ _ _ _
    (fun a => (m.node a).parent) is how.op legal fun _ => rfl
  exact ⟨_, _, dq', m', ran, done, how.apply_spec _ (UInt32.toNat_lt _) ys⟩

theorem Steal.cells (how : Steal) (dummy : ℕ) : how.op.cells dummy ys = ys ++ [dummy] := by
  cases how <;> rfl

/-- What the thief is told is right. -/
theorem Steal.pack_holds (how : Steal) {zs : List ℕ} (list : IsList m zs)
    (one : how = .one → zs.length ≤ 1) (short : zs.length < 2 ^ 32) :
    (Root.sent (how.pack (how.op.report zs))).Holds m zs := by
  cases zs with
  | nil => cases how <;> rfl
  | cons z zs =>
    cases how with
    | one =>
      obtain rfl : zs = [] := by simpa using one rfl
      exact ⟨list, by simp, rfl, by simp [Steal.op, Op.report, first, last], by simp, by simp⟩
    | half tail =>
      refine ⟨list, by simp, rfl, ?_, ?_, short⟩ <;> cases tail <;> simp [Op.report, Steal.op]
    | many tail max =>
      refine ⟨list, by simp, rfl, ?_, ?_, short⟩ <;> cases tail <;> simp [Op.report, Steal.op]

theorem steal_owns (owned : Owned s content) (how : Steal) :
    Ensures (fun _ => False) (s.steal w how k) Owns := by
  rw [State.steal, ensures_bind, ensures_await]
  rintro ⟨unused, positive⟩
  refine ensures_own fun dq known => ?_
  obtain ⟨ys, dummy, split, is⟩ := owned.deque known
  obtain ⟨zs, rest, dq', m, ran, done, rfl, one, short⟩ := how.exec_spec positive is
  rw [ran, ok_bind]
  apply owned.call known split done (.sent k) zs (by simp) ?_ rfl (fun r other => root_post other)
  · rw [owned.unused unused, List.append_nil]
  · simp only [State.root, State.post, State.put, update_self]
    exact how.pack_holds done.list one short
  · intro a inside
    rw [how.cells, ← split] at inside
    exact .inl inside

theorem ok_of_reply {run : LinkedDeque.Checked (Deque × Heap)} {reply : Loot}
    (ran : (do let (dq, m) ← run; return (Loot.none, dq, m)) = Except.ok (reply, dq', m)) :
    run = .ok (dq', m) := by
  cases run with
  | error stop => cases ran
  | ok done =>
    cases ran
    rfl

theorem adopt_spec (how : Prepend) (is : IsDeque m dq dummy ys) {loot : Loot}
    (carries : Carries m loot xs) (allocated : ∀ a ∈ xs, a < m.size)
    (apart : ∀ a ∈ xs, a ∉ ys ++ [dummy]) :
    Ensures (fun _ => False) (adopt how dq loot m) fun r =>
      (Op.prepend how xs).Done m r.2 dq r.1 dummy ys [] (xs ++ ys) := by
  obtain ⟨dq', m', ran, done⟩ := @Op.exec_refines _ _ _ _
    (fun a => (m.node a).parent) is (.prepend how xs)
    ⟨carries.list, carries.nonempty, allocated, apart, fun _ => carries.short⟩ fun _ => rfl
  obtain ⟨task, tail, stolen⟩ := loot
  obtain rfl : task = first xs none := carries.task
  cases how with
  | plain =>
    change Ensures _ (dequePrependAll dq (first xs none) m) _
    rw [ok_of_reply ran]
    exact done
  | withLength =>
    cases stolen with
    | none => exact ensures_disabled
    | some n =>
      obtain rfl : n = xs.length := carries.stolen n rfl
      change Ensures _ (dequePrependLen dq (first xs none) (.ofNat xs.length) m) _
      rw [ok_of_reply ran]
      exact done
  | withTail =>
    cases tail with
    | none => exact ensures_disabled
    | some p =>
      cases stolen with
      | none => exact ensures_disabled
      | some n =>
        obtain rfl : n = xs.length := carries.stolen n rfl
        obtain rfl : p = last none xs := carries.tail p rfl
        change Ensures _ (dequePrepend dq (first xs none) (last none xs) (.ofNat xs.length) m) _
        rw [ok_of_reply ran]
        exact done

theorem prepend_owns (owned : Owned s content) (how : Prepend) :
    Ensures (fun _ => False) (s.prepend w how k) Owns := by
  refine ensures_own fun dq known => ensures_message fun loot sent => ?_
  obtain ⟨ys, dummy, split, is⟩ := owned.deque known
  have adopted := adopt_spec how is (owned.message sent)
    (fun a inside => (owned.allocated a).mpr ⟨_, inside⟩)
    (fun a inside => split ▸ owned.disjoint (by simp) inside)
  rw [ensures_bind]
  apply adopted.mono
  rintro ⟨dq', m⟩ done
  apply owned.call known split done (.sent k) [] (by simp) ?_ rfl (fun r other => root_post other)
  · rw [List.append_nil]
    exact List.perm_append_comm
  · simp only [State.root, State.post, State.put, update_self]
    rfl
  · intro a inside
    rw [Op.cells, ← split, List.mem_append] at inside
    exact inside.symm

/-! ## Acts on the freelist -/

omit [DecidableEq ι] in
theorem fill_owned (owned : Owned s content) (held : a ∈ s.held w) {task : Task}
    (prev : task.prev = (s.heap.node a).prev) (next : task.next = (s.heap.node a).next) :
    Owned { s with heap := s.heap.set a task } content := by
  refine owned.step owned.separate owned.allocated (fun r => r = .held w) ?_ ?_
  · rintro r rfl
    refine ⟨owned.held, fun b known => ?_⟩
    apply IsList.congr (owned.alone known)
    intro c alone
    by_cases same : c = a
    · subst same
      simp [Heap.set, prev, next]
    · simp [Heap.set, same]
  · refine fun r other => ⟨rfl, ?_, fun b known => ?_⟩
    · cases r <;> rfl
    · have differ : b ≠ a := by
        rintro rfl
        exact owned.disjoint other known (owned.held ▸ held)
      simp [Heap.set, differ]

omit [DecidableEq ι] in
theorem fill_owns (owned : Owned s content) (body : TaskBody) :
    Ensures (fun _ => False) (s.fill w a body) Owns := by
  rw [State.fill, ensures_bind, ensures_await]
  exact fun held => ⟨content, fill_owned owned held rfl rfl⟩

/-- The task `a` was obtained; it is not at any place yet. -/
structure Obtained (s : State ι) (content : Place ι → List ℕ) (w : ι) (dq : Deque) (a : ℕ)
    (list : Ptr) (m : Heap) : Prop where
  clean : m.node a = (m.node a).zero
  others : ∀ b, b ≠ a → m.node b = s.heap.node b
  from_ : (a = s.heap.size ∧ m.size = s.heap.size + 1 ∧ list = dq.freelist) ∨
    ∃ rest, content (.free w) = a :: rest ∧ m.size = s.heap.size ∧ IsFree m list rest

omit [DecidableEq ι] in
theorem dequeTaskNew_spec (owned : Owned s content) (known : s.deque w = some dq) :
    ∃ a list m, dequeTaskNew dq s.heap = .ok (some a, { dq with freelist := list }, m) ∧
      Obtained s content w dq a list m := by
  have free := owned.free known
  have distinct := owned.separate.nodup (.free w)
  cases cached : content (.free w) with
  | nil =>
    rw [cached] at free
    have none_ : dq.freelist = none := free
    refine ⟨s.heap.size, dq.freelist, Heap.set { s.heap with size := s.heap.size + 1 } s.heap.size
      (s.heap.node s.heap.size).zero, ?_, ?_, ?_, .inl ⟨rfl, rfl, rfl⟩⟩
    · rw [dequeTaskNew, if_pos none_]
      rfl
    · simp [Heap.set, Task.zero]
    · intro b other
      simp [Heap.set, other]
  | cons a rest =>
    rw [cached] at free distinct
    obtain ⟨begins, clean, tail⟩ := free
    refine ⟨a, (s.heap.node a).next, s.heap.set a { s.heap.node a with next := none }, ?_, ?_, ?_,
      .inr ⟨rest, cached, rfl, tail.congr ?_⟩⟩
    · simp only [dequeTaskNew, freelistPop, begins, reduceCtorEq, if_false, Heap.load, Heap.setNext,
        ok_bind]
      rfl
    · rw [clean]
      simp [Heap.set, Task.zero]
    · intro b other
      simp [Heap.set, other]
    · intro b later
      have differ : b ≠ a := by
        rintro rfl
        exact (List.nodup_cons.mp distinct).1 later
      simp [Heap.set, differ]

theorem root_put_same (known : s.deque w = some dq) :
    (s.put w { dq with freelist := dq.freelist } m).root r = s.root r := by
  by_cases free : r = .free w
  · exact root_put known rfl (by simp [free])
  · exact root_put_free known free

/-- The task that was obtained is put somewhere. -/
theorem Obtained.place (obtained : Obtained s content w dq a list m) (owned : Owned s content)
    (known : s.deque w = some dq) (q : Place ι) (differ : .free w ≠ q)
    (same : xs.Perm (a :: content q)) (size : s'.heap.size = m.size)
    (nodes : ∀ b, b ≠ a → s'.heap.node b = m.node b)
    (roots : ∀ r, r ≠ q → s'.root r = (s.put w { dq with freelist := list } m).root r)
    (here : (s'.root q).Holds s'.heap xs) : Owns s' := by
  have before : ∀ b, b ≠ a → s'.heap.node b = s.heap.node b :=
    fun b other => (nodes b other).trans (obtained.others b other)
  rcases obtained.from_ with ⟨rfl, grown, rfl⟩ | ⟨rest, cached, kept, free⟩
  · refine ⟨_, owned.add same (size.trans grown) (fun b other _ => before b other) ?_ here⟩
    intro r other
    rw [roots r other, root_put_same known]
  · have distinct := owned.separate.nodup (.free w)
    rw [cached, List.nodup_cons] at distinct
    refine ⟨_, @Owned.exchange _ _ _ _ _ _ _ rest _ owned differ ?_ (size.trans kept) ?_ ?_ ?_ here⟩
    · rw [cached]
      exact (same.append_left rest).trans List.perm_middle
    · intro b outside _
      apply before
      rintro rfl
      exact outside (cached ▸ List.mem_cons_self)
    · intro r other other'
      rw [roots r other', root_put_free known other]
    · rw [roots _ differ]
      simp only [State.root, State.put, update_self]
      refine IsFree.congr free fun b later => nodes b ?_
      rintro rfl
      exact distinct.1 later

omit [DecidableEq ι] in
theorem Obtained.new (obtained : Obtained s content w dq a list m) (owned : Owned s content)
    (other : p ≠ .free w) {b : ℕ} (known : b ∈ content p) : b ≠ a := by
  rintro rfl
  rcases obtained.from_ with ⟨rfl, -⟩ | ⟨rest, cached, -⟩
  · exact Nat.lt_irrefl _ ((owned.allocated _).mpr ⟨p, known⟩)
  · exact owned.disjoint other known (cached ▸ List.mem_cons_self)

theorem isList_singleton : IsList m [a] ↔ (m.node a).prev = none ∧ (m.node a).next = none :=
  ⟨fun list => ⟨list.linked.1, list.linked.2.1⟩, fun ends => ⟨⟨ends.1, ends.2, trivial⟩, by simp⟩⟩

theorem taskNew_owns (owned : Owned s content) :
    Ensures (fun _ => False) (s.taskNew w) Owns := by
  refine ensures_own fun dq known => ?_
  obtain ⟨a, list, m, ran, obtained⟩ := dequeTaskNew_spec owned known
  rw [ran, ok_bind]
  apply obtained.place owned known (.held w) (by simp) (.refl _) rfl (fun b other => rfl)
    (fun r other => root_hold other)
  rw [owned.held]
  simp only [State.root, State.hold, State.put, update_self]
  refine ⟨rfl, fun b known => ?_⟩
  rcases List.mem_cons.mp known with rfl | before
  · rw [isList_singleton, obtained.clean]
    exact ⟨rfl, rfl⟩
  · exact owned.still before
      (obtained.others b (obtained.new owned (by simp) (owned.held ▸ before)))

theorem create_owns (owned : Owned s content) : Ensures (fun _ => False) (s.create w) Owns := by
  rw [State.create, ensures_bind, ensures_await]
  intro unused
  obtain ⟨dq, m, ran, is, freelist, size, nodes⟩ := dequeNew_spec s.heap
  have empty : content (.deque w) = [] := by
    have holds := owned.holds (.deque w)
    rw [State.root, unused] at holds
    exact holds
  rw [ran, ok_bind]
  refine ⟨_, @Owned.add _ _ _ _ _ (.deque w) [s.heap.size] owned ?_ size
    (fun a other _ => nodes a other) ?_ ?_⟩
  · rw [empty]
  · intro r other
    cases r with
    | deque v =>
      have differ : v ≠ w := fun same => other (same ▸ rfl)
      simp [State.root, State.put, differ]
    | free v =>
      by_cases same : v = w
      · subst same
        simp [State.root, State.put, unused, freelist]
      · simp [State.root, State.put, same]
    | held v => rfl
    | sent k => rfl
  · simp only [State.root, State.put, update_self]
    exact ⟨[], s.heap.size, rfl, is.head, is.tail, is.chain, is.count, is.mark⟩

theorem cache_owns (owned : Owned s content) : Ensures (fun _ => False) (s.cache w a) Owns := by
  rw [State.cache, ensures_bind, ensures_await]
  refine fun held => ensures_own fun dq known => ?_
  have free := owned.free known
  have outside : a ∉ content (.free w) := owned.disjoint (by simp) (owned.held ▸ held)
  have ran : dequeTaskCache dq (some a) s.heap = .ok ({ dq with freelist := some a },
      (s.heap.set a (s.heap.node a).zero).set a
        { (s.heap.node a).zero with next := dq.freelist }) := by
    simp [dequeTaskCache, check, taskZero, freelistPush, Heap.setNext, Heap.set, bind, Except.bind,
      pure, Except.pure]
  rw [ran, ok_bind]
  refine ⟨_, @Owned.exchange _ _ _ _ _ (.held w) (.free w) ((s.held w).erase a)
    (a :: content (.free w)) owned (by simp) ?_ rfl ?_ ?_ ?_ ?_⟩
  · rw [owned.held]
    exact List.perm_middle.trans ((List.perm_cons_erase held).symm.append_right _)
  · intro b other _
    have differ : b ≠ a := by
      rintro rfl
      exact other (owned.held ▸ held)
    simp [State.release, State.put, Heap.set, differ]
  · intro r other other'
    rw [root_release other, root_put_free known other']
  · simp only [State.root, State.release, State.put, update_self]
    exact owned.left fun b other _ => by simp [Heap.set, other]
  · simp only [State.root, State.release, State.put, update_self]
    refine ⟨rfl, ?_, ?_⟩
    · simp [Heap.set, Task.zero]
    · simp only [Heap.set, update_self]
      refine free.congr fun b inside => ?_
      have differ : b ≠ a := by
        rintro rfl
        exact outside inside
      simp [differ]

theorem carries_single (list : IsList m [a]) : Carries m (single (some a)) [a] :=
  ⟨list, by simp, rfl, by simp [single, last], by simp [single], by simp⟩

theorem send_owns (owned : Owned s content) : Ensures (fun _ => False) (s.send w a k) Owns := by
  rw [State.send, ensures_bind, ensures_await]
  rintro ⟨held, unused⟩
  refine ⟨_, @Owned.exchange _ _ _ _ _ (.held w) (.sent k) ((s.held w).erase a) [a] owned
    (by simp) ?_ rfl (fun _ _ _ => rfl) ?_ ?_ ?_⟩
  · rw [owned.held, owned.unused unused, List.append_nil]
    exact (List.perm_append_singleton _ _).trans (List.perm_cons_erase held).symm
  · intro r other other'
    rw [root_post other', root_release other]
  · rw [root_post (by simp)]
    simp only [State.root, State.release, update_self]
    exact owned.left fun b _ _ => rfl
  · simp only [State.root, State.post, update_self]
    exact carries_single (owned.alone held)

theorem receive_owns (owned : Owned s content) : Ensures (fun _ => False) (s.receive w k) Owns := by
  refine ensures_message fun loot sent => ?_
  have carries := owned.message sent
  obtain ⟨x, xs, inside⟩ := List.exists_cons_of_ne_nil carries.nonempty
  have begins : loot.task = some x := by rw [carries.task, inside]; rfl
  rw [begins]
  change Ensures _ (if (s.heap.node x).next ≠ none then _ else _) _
  rw [ensures_ite, ensures_bind]
  refine ⟨fun _ => (prepend_owns owned .plain).mono ?_, fun ends => ?_⟩
  · rintro s' ⟨content', owned'⟩
    exact pop_owns owned' .any
  · -- the task came alone
    have list := carries.list
    rw [inside] at list
    obtain rfl : xs = [] := by
      cases xs with
      | nil => rfl
      | cons y ys =>
        have goes : (s.heap.node x).next = some y := list.linked.2.1
        exact absurd (by simp [goes]) ends
    refine ⟨_, @Owned.exchange _ _ _ _ _ (.sent k) (.held w) [] (x :: s.held w) owned (by simp)
      ?_ rfl (fun _ _ _ => rfl) ?_ ?_ ?_⟩
    · rw [inside, owned.held]
      exact .refl _
    · intro r other other'
      rw [root_hold other', root_post other]
    · rw [root_hold (by simp)]
      simp only [State.root, State.post, update_self]
      rfl
    · simp only [State.root, State.hold, State.post, update_self]
      refine ⟨rfl, fun b known => ?_⟩
      rcases List.mem_cons.mp known with rfl | before
      · exact list
      · exact owned.alone before

@[simp] theorem splitCopy_prev {task : Task} :
    (splitCopy task at_ future).prev = task.prev := by
  simp only [splitCopy]
  split <;> rfl

@[simp] theorem splitCopy_next {task : Task} :
    (splitCopy task at_ future).next = task.next := by
  simp only [splitCopy]
  split <;> rfl

theorem split_owns (owned : Owned s content) :
    Ensures (fun _ => False) (s.split w a at_ future k) Owns := by
  rw [State.split, ensures_bind, ensures_await]
  rintro ⟨held, unused⟩
  refine ensures_own fun dq known => ?_
  obtain ⟨dup, list, m, ran, obtained⟩ := dequeTaskNew_spec owned known
  have differ : a ≠ dup := obtained.new owned (p := .held w) (by simp) (owned.held ▸ held)
  have same : m.node a = s.heap.node a := obtained.others a differ
  have ran : splitLoop dq (some a) at_ future s.heap = .ok (some dup, { dq with freelist := list },
      (m.set dup (splitCopy (s.heap.node a) at_ future)).set a
        { s.heap.node a with stop := at_ }) := by
    simp only [splitLoop, ran, ok_bind, Heap.load, Heap.store, same]
    rfl
  have ends := isList_singleton.mp (owned.alone held)
  rw [ran, ok_bind]
  -- the copy goes to the thief, and then the end of the task changes
  let sent : State ι := (s.put w { dq with freelist := list }
    (m.set dup (splitCopy (s.heap.node a) at_ future))).post k (some (single (some dup)))
  have copied : Owns sent := by
    apply obtained.place owned known (.sent k) (by simp) (.refl _) rfl
    · intro b other
      simp [sent, State.post, State.put, Heap.set, other]
    · intro r other
      rw [root_post other]
      cases r <;> rfl
    · rw [owned.unused unused]
      simp only [sent, State.root, State.post, State.put, update_self]
      apply carries_single
      rw [isList_singleton]
      simpa [Heap.set, splitCopy_prev, splitCopy_next] using ends
  obtain ⟨content', owned'⟩ := copied
  have kept : sent.heap.node a = s.heap.node a := by
    simp [sent, State.post, State.put, Heap.set, differ, same]
  exact ⟨content', fill_owned owned' held (kept ▸ rfl) (kept ▸ rfl)⟩

/-! ## Whole runs -/

/-- No act fails an assertion, and after it every task object is in one place again. -/
theorem step_owns (owned : Owned s content) (act : Act ι) :
    Ensures (fun _ => False) (step act s) Owns := by
  cases act with
  | create w => exact create_owns owned
  | taskNew w => exact taskNew_owns owned
  | fill w a body => exact fill_owns owned body
  | push w a => exact push_owns owned
  | pop w how => exact pop_owns owned how
  | steal w how k => exact steal_owns owned how
  | prepend w how k => exact prepend_owns owned how
  | receive w k => exact receive_owns owned
  | send w a k => exact send_owns owned
  | split w a at_ future k => exact split_owns owned
  | cache w a => exact cache_owns owned

theorem reachable_owns {junk : ℕ → Task} (reached : (system junk).Reachable s) : Owns s := by
  refine reached.invariant ?_ ?_
  · rintro s rfl
    refine ⟨fun _ => [], ⟨fun _ => List.nodup_nil, fun _ _ _ => List.disjoint_nil_left _⟩, ?_, ?_⟩
    · simp [State.initial]
    · intro p
      cases p with
      | deque w => exact rfl
      | free w => exact rfl
      | held w => exact ⟨rfl, fun a none_ => absurd none_ List.not_mem_nil⟩
      | sent k => exact rfl
  · rintro s s' - ⟨content, owned⟩ ⟨act, moved⟩
    exact (step_owns owned act).value moved

theorem split_sends (moved : s.split w a at_ future k = .ok s') :
    a ∈ s'.held w ∧ ∃ dup, s'.sent k = some (single dup) := by
  have sends : Ensures (fun _ => True) (s.split w a at_ future k) fun s' =>
      a ∈ s'.held w ∧ ∃ dup, s'.sent k = some (single dup) := by
    rw [State.split, ensures_bind, ensures_await]
    rintro ⟨held, -⟩
    refine ensures_own fun dq _ => ensures_bind.mpr (Ensures.any.mono ?_)
    rintro ⟨dup, dq', m⟩ -
    exact ⟨held, dup, by simp [State.post]⟩
  exact sends.value moved

/-- In any run every task object is in exactly one place, no assertion of the deques
fails, a new task is clean, and the tasks that workers hold are not linked, so that the
copy `split_loop` sends is a list of one task. -/
theorem task_objects_have_one_owner {junk : ℕ → Task} (reached : (system junk).Reachable s) :
    (∃ content : Place ι → List ℕ, (∀ p, (s.root p).Holds s.heap (content p)) ∧
      (∀ p, (content p).Nodup) ∧ (∀ p, ∀ a ∈ content p, a < s.heap.size) ∧
      ∀ a < s.heap.size, ∃! p, a ∈ content p) ∧
    (∀ act fault, step act s ≠ .error (.fault fault)) ∧
    (∀ w dq, s.deque w = some dq → ∃ a dq' m, dequeTaskNew dq s.heap = .ok (some a, dq', m) ∧
      Clean (m.node a)) ∧
    (∀ w, ∀ a ∈ s.held w, (s.heap.node a).prev = none ∧ (s.heap.node a).next = none) ∧
    ∀ w a at_ future k s', s.split w a at_ future k = .ok s' →
      ∃ dup, dup ≠ a ∧ s'.sent k = some (single (some dup)) ∧ IsList s'.heap [dup] := by
  obtain ⟨content, owned⟩ := reachable_owns reached
  refine ⟨⟨content, owned.holds, owned.separate.nodup, ?_, ?_⟩, ?_, ?_, ?_, ?_⟩
  · exact fun p a inside => (owned.allocated a).mpr ⟨p, inside⟩
  · intro a allocated
    obtain ⟨p, inside⟩ := (owned.allocated a).mp allocated
    exact ⟨p, inside, fun q there => owned.separate.unique there inside⟩
  · intro act fault failed
    exact (step_owns owned act).tolerates failed
  · intro w dq known
    obtain ⟨a, list, m, ran, obtained⟩ := dequeTaskNew_spec owned known
    exact ⟨a, _, m, ran, clean_of_zero obtained.clean⟩
  · exact fun w a held => isList_singleton.mp (owned.alone held)
  · intro w a at_ future k s' moved
    obtain ⟨content', owned'⟩ := (split_owns owned).value moved
    obtain ⟨held, dup, sent⟩ := split_sends moved
    have carries := owned'.message sent
    obtain ⟨copy, inside⟩ : ∃ copy, content' (.sent k) = [copy] :=
      List.length_eq_one_iff.mp (carries.stolen 1 rfl).symm
    obtain rfl : dup = some copy := by
      have begins := carries.task
      rw [inside] at begins
      exact begins
    refine ⟨copy, ?_, sent, inside ▸ carries.list⟩
    rintro rfl
    exact @Owned.disjoint _ _ _ (.sent k) (.held w) copy owned' (by simp) (by simp [inside])
      (owned'.held ▸ held)

def untouched : ℕ → Task :=
  fun a => ⟨⟨none, some a, 7, 7, 7, 7, true, true, none, []⟩, some a, some a⟩

/-- One worker pushes two tasks, the other steals both, runs one that it splits, and
caches it. -/
def stealAndCache : List (Act Bool) :=
  [.create false, .create true, .taskNew false, .push false 2, .taskNew false, .push false 3,
    .steal false (.half false) 0, .receive true 0, .fill true 2 (untouched 0).toTaskBody,
    .split true 2 5 [] 1, .cache true 2]

theorem one_owner_after_steal :
    ∃ s : State Bool, (system untouched).Reachable s ∧ s.heap.size = 5 ∧
      s.sent 1 = some (single (some 4)) ∧ (s.heap.node 4).start = 5 ∧
      (∃ dq, s.deque true = some dq ∧ dq.freelist = some 2) ∧
      ∃ content : Place Bool → List ℕ, ∀ a < 5, ∃! p, a ∈ content p := by
  obtain ⟨⟨content, -, -, -, unique⟩, -⟩ :=
    @task_objects_have_one_owner Bool _ _ untouched (System.follow_reachable stealAndCache)
  exact ⟨_, System.follow_reachable stealAndCache, by decide, by decide, by decide,
    ⟨_, rfl, by decide⟩, content, unique⟩

end Moves
end Tasking.TaskObjects
