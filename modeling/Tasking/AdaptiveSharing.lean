import Tasking.EqualShares
import Tasking.RequestAccounting
import Tasking.TreeWalks

/-!
How `RT_pop` serves the requests it finds when it has popped the last task of its
deque and that task is a loop.  Every request takes `split_adaptive`'s share of what
is left, and the count of the requests still waiting goes down by one each time.

- `serve_one`: one turn of the loop of `RT_pop` sends the thief the upper end of the
  range, of the size that `EqualShares.shares` gives it.
- `serve_all`: so all of them are served, and the sizes are those of an equal
  division.
-/
namespace Tasking.Runtime
open Loops Fallible Family EqualShares TreeWalks

variable {cfg : Config} {ID : ℕ} {n n' : Node} {site : Site} {t : Task} {req : StealRequest}
  {reqs rest : List StealRequest}

/-- What `split_adaptive` counts: `channel_peek` of the worker's own channel and, under
`BACKOFF`, `COUNT_REQ` of its idle subtrees. -/
def requestsCounted (cfg : Config) (ID : ℕ) (n : Node) : ℕ :=
  let peek (i : ℕ) : ℕ := (n.net.chanRequests i).length
  if cfg.backoff = .off then peek ID
  else ((numIdle cfg.numWorkers peek cfg.numWorkers ID n.self.leftSubtreeIsIdle
    n.self.rightSubtreeIsIdle).getD 1) - 1

/-- The worker takes a step in which `split_adaptive` counts what is there; in the runtime a
step may count anything, because requests come and go. -/
def counting (cfg : Config) (ID : ℕ) (n : Node) : Checked Node :=
  wstep cfg ID ⟨.poll, ⟨[], requestsCounted cfg ID n⟩, false⟩ n

/-- `k` turns of the loop of `RT_pop`: `RECV_REQ`, and what is done with the request. -/
def serve (cfg : Config) (ID : ℕ) : (k : ℕ) → Node → Checked Node
  | 0, n => .ok n
  | k + 1, n => do
    let n ← counting cfg ID n
    let n ← counting cfg ID n
    serve cfg ID k n

/-- `RT_pop` has popped the loop task `t` from a deque that is empty now, no child has an
idle subtree, and these are the requests in the worker's channel.  They come from other
workers, and each has a channel of its own to be answered in. -/
structure Serving (cfg : Config) (ID : ℕ) (site : Site) (t : Task) (reqs : List StealRequest)
    (n : Node) : Prop where
  pc : n.self.pc = .recvReq (.pop site (some t))
  deque : n.self.deque = []
  left_busy : cfg.leftChild ID ≠ none → n.self.leftSubtreeIsIdle = false
  right_busy : cfg.rightChild ID ≠ none → n.self.rightSubtreeIsIdle = false
  loop : t.splittable = true
  requests : n.net.chanRequests ID = reqs
  others : ∀ req ∈ reqs, req.ID ≠ ID ∧ req.state ≠ .failed
  slots : ∀ req ∈ reqs, n.net.chanTasks req.ID req.chan = none
  apart : (reqs.map fun req => (req.ID, req.chan)).Nodup

/-- A future for the part split off can be registered: the loop has no future, or the
worker has a current task. -/
def CanRegister (ID : ℕ) (t : Task) (n : Node) : Prop :=
  t.future = none ∨ ID = 0 ∨ n.self.frames ≠ []

/-- The range runs upward and is no wider than a `long`. -/
structure Wide (r : LoopRange) : Prop where
  cur_fits : InLong r.cur
  stop_fits : InLong r.stop
  width_fits : InLong (r.stop - r.cur)

def Task.left (t : Task) : ℤ := t.range.stop - t.range.cur

/-! ## One request -/

/-- What `split_loop` leaves alone, so that the next request is served under the same
conditions. -/
structure Untouched (n n' : Node) : Prop where
  pc : n'.self.pc = n.self.pc
  deque : n'.self.deque = n.self.deque
  left_idle : n'.self.leftSubtreeIsIdle = n.self.leftSubtreeIsIdle
  right_idle : n'.self.rightSubtreeIsIdle = n.self.rightSubtreeIsIdle
  frames : n.self.frames ≠ [] → n'.self.frames ≠ []
  requests : n'.net.chanRequests = n.net.chanRequests

theorem Untouched.trans {n'' : Node} (first : Untouched n n') (second : Untouched n' n'') :
    Untouched n n'' :=
  ⟨second.pc.trans first.pc, second.deque.trans first.deque, second.left_idle.trans first.left_idle,
    second.right_idle.trans first.right_idle, fun some => second.frames (first.frames some),
    second.requests.trans first.requests⟩

theorem taskAlloc_untouched (n : Node) : Untouched n (taskAlloc n).2 ∧
    (taskAlloc n).2.net.chanTasks = n.net.chanTasks := by
  unfold taskAlloc
  split
  · exact ⟨⟨rfl, rfl, rfl, rfl, id, rfl⟩, rfl⟩
  · exact ⟨⟨rfl, rfl, rfl, rfl, id, rfl⟩, rfl⟩

theorem registerFuture_ok {f : ℕ} {x : Worker} (can : ID = 0 ∨ x.frames ≠ []) :
    ∃ x', registerFuture ID f x = .ok x' ∧ x'.pc = x.pc ∧ x'.deque = x.deque ∧
      x'.leftSubtreeIsIdle = x.leftSubtreeIsIdle ∧ x'.rightSubtreeIsIdle = x.rightSubtreeIsIdle ∧
      (x.frames ≠ [] → x'.frames ≠ []) := by
  cases frames : x.frames with
  | nil =>
    have master : ID = 0 := can.resolve_right fun current => current frames
    simp only [registerFuture, frames, if_pos master]
    exact ⟨_, rfl, rfl, rfl, rfl, rfl, id⟩
  | cons frame rest =>
    simp only [registerFuture, frames]
    exact ⟨_, rfl, rfl, rfl, rfl, rfl, by simp⟩

theorem patchFuture_untouched {dup : Task} (can : CanRegister ID dup n) :
    ∃ dup' n', patchFuture ID dup n = .ok (dup', n') ∧ dup'.range = dup.range ∧ Untouched n n' ∧
      n'.net.chanTasks = n.net.chanTasks := by
  unfold patchFuture
  cases future : dup.future with
  | none => exact ⟨dup, n, rfl, rfl, ⟨rfl, rfl, rfl, rfl, id, rfl⟩, rfl⟩
  | some f =>
    have current : ID = 0 ∨ n.self.frames ≠ [] := can.resolve_left (by simp [future])
    obtain ⟨x', registered, pc, deque, left, right, frames⟩ :=
      @registerFuture_ok ID n.net.nextFuture n.self current
    simp only [registered]
    exact ⟨_, _, rfl, rfl, ⟨pc, deque, left, right, frames, rfl⟩, rfl⟩

theorem Wide.itersLeft {r : LoopRange} (wide : Wide r) (upward : 0 ≤ r.stop - r.cur) :
    Loops.itersLeft r = r.stop - r.cur := by
  have fits := wide.width_fits
  rw [Loops.itersLeft, long_eq fits, labs, abs_of_nonneg upward, long_eq fits]

theorem splitAdaptive_eq {r : LoopRange} {pending : ℕ} (wide : Wide r) (more : 1 < r.stop - r.cur) :
    splitAdaptive pending r =
      .ok (r.stop - max ((r.stop - r.cur) / (pending + 2)) 1) := by
  have exact := wide.itersLeft (by omega)
  obtain ⟨⟨curLow, -⟩, ⟨-, stopHigh⟩, -⟩ := wide
  have share : (r.stop - r.cur).tdiv ((pending : ℤ) + 1 + 1) =
    (r.stop - r.cur) / (pending + 2) := by
    rw [Int.tdiv_eq_ediv_of_nonneg (by omega), add_assoc]
    rfl
  have notAll : max ((r.stop - r.cur) / (pending + 2)) 1 < r.stop - r.cur := by
    refine max_lt (Int.ediv_lt_of_lt_mul (by omega) ?_) more
    nlinarith
  have positive : 1 ≤ max ((r.stop - r.cur) / ((pending : ℤ) + 2)) 1 := le_max_right _ _
  simp only [splitAdaptive, exact, check, if_pos more, ok_bind, share, if_pos notAll]
  rw [long_eq ⟨by omega, by omega⟩]
  rfl

/-- `split_loop` sends away the share of one thief and leaves the rest. -/
theorem splitLoop_adaptive {o : Oracle} (adaptive : cfg.split = .adaptive) (other : req.ID ≠ ID)
    (can : CanRegister ID t n) (wide : Wide t.range) (more : 1 < t.left)
    (empty : n.net.chanTasks req.ID req.chan = none) :
    ∃ dup n', splitLoop cfg o ID t req n =
        .ok (t.range.stop - max (t.left / (o.pending + 2)) 1, n') ∧
      dup.range = t.range.upper (t.range.stop - max (t.left / (o.pending + 2)) 1) ∧
      Untouched n n' ∧
      n'.net.chanTasks = (n.net.putTask req.ID req.chan
        (some (.tasks [dup] req.state))).chanTasks := by
  obtain ⟨allocated, sameTasks⟩ := taskAlloc_untouched n
  have cut : splitFunc cfg.split cfg.numWorkers o.pending t.range =
      .ok (t.range.stop - max (t.left / (o.pending + 2)) 1) := by
    rw [adaptive]
    exact splitAdaptive_eq wide more
  simp only [splitLoop, check, if_pos other, ok_bind, cut]
  generalize taskAlloc n = allocation at allocated sameTasks
  obtain ⟨addr, n₁⟩ := allocation
  dsimp only at allocated sameTasks ⊢
  generalize patched : Task.mk _ _ _ _ _ _ _ _ _ = dup
  have can₁ : CanRegister ID dup n₁ := by
    subst patched
    exact can.imp_right fun current => current.imp_right allocated.frames
  obtain ⟨dup', n₂, ran, range, untouched, same⟩ := patchFuture_untouched can₁
  have slot : n₂.net.chanTasks req.ID req.chan = none := by
    rw [same, sameTasks]
    exact empty
  rw [ran]
  refine ⟨dup', _, rfl, ?_, ?_, ?_⟩
  · rw [range, ← patched]
  · refine allocated.trans (untouched.trans ⟨rfl, rfl, rfl, rfl, id, ?_⟩)
    dsimp only
    rw [Network.sendTasks]
    split <;> rfl
  · simp only [Network.sendTasks, slot, Network.putTask, same, sameTasks]

/-- Without a task to register the future of the part with, `split_loop` follows a null
pointer. -/
theorem splitLoop_faults {o : Oracle} (adaptive : cfg.split = .adaptive) (other : req.ID ≠ ID)
    (cannot : ¬ CanRegister ID t n) (wide : Wide t.range) (more : 1 < t.left) :
    splitLoop cfg o ID t req n = .error (.fault .splitLoopNullTask) := by
  simp only [CanRegister, not_or, ne_eq, not_not] at cannot
  obtain ⟨hasFuture, worker, none⟩ := cannot
  have cut : splitFunc cfg.split cfg.numWorkers o.pending t.range =
      .ok (t.range.stop - max (t.left / (o.pending + 2)) 1) := by
    rw [adaptive]
    exact splitAdaptive_eq wide more
  have frames : (taskAlloc n).2.self.frames = [] := by
    unfold taskAlloc
    split <;> exact none
  simp only [splitLoop, check, if_pos other, ok_bind, cut]
  generalize taskAlloc n = allocation at frames
  obtain ⟨addr, n₁⟩ := allocation
  dsimp only at frames ⊢
  cases future : t.future with
  | none => exact absurd future hasFuture
  | some f =>
    simp only [patchFuture, registerFuture, frames, if_neg worker]
    rfl

/-- With no subtree idle, only the worker's own channel is counted. -/
theorem requestsCounted_busy (left : cfg.leftChild ID ≠ none → n.self.leftSubtreeIsIdle = false)
    (right : cfg.rightChild ID ≠ none → n.self.rightSubtreeIsIdle = false) :
    requestsCounted cfg ID n = (n.net.chanRequests ID).length := by
  have nothing (peek : ℕ → ℕ) (idle : Bool) (child : Option ℕ) (busy : child ≠ none → idle = false)
      (marked : idle = true) : countReq cfg.numWorkers peek cfg.numWorkers child 0 = some 0 := by
    cases child with
    | none => cases cfg.numWorkers <;> rfl
    | some c =>
      rw [busy (by simp)] at marked
      cases marked
  rw [requestsCounted, numIdle_eq (nothing _ _ _ left) (nothing _ _ _ right)]
  simp

theorem chanTasks_putTask_other {net : Network} {owner chan owner' chan' : ℕ}
    {message : Option Message} (differ : ¬ (owner' = owner ∧ chan' = chan)) :
    (net.putTask owner chan message).chanTasks owner' chan' = net.chanTasks owner' chan' := by
  by_cases row : owner' = owner
  · subst row
    have column : chan' ≠ chan := fun same => differ ⟨rfl, same⟩
    simp [Network.putTask, column]
  · simp [Network.putTask, row]

/-- The request at the head of the channel has been received. -/
def Node.taking (n : Node) (ID : ℕ) (site : Site) (t : Task) (req : StealRequest) : Node :=
  { n with net := n.net.dropRequest ID }.goto (.handle (.pop site (some t)) req)

theorem Serving.takes (serving : Serving cfg ID site t (req :: rest) n) :
    counting cfg ID n = .ok (n.taking ID site t req) := by
  have live := (serving.others req List.mem_cons_self).2
  simp only [counting, wstep, serving.pc, recvReqStep, serving.requests, if_neg live]
  rfl

theorem Serving.waiting (serving : Serving cfg ID site t (req :: rest) n) :
    (n.taking ID site t req).net.chanRequests ID = rest := by
  simp [Node.taking, Node.goto, Network.dropRequest, serving.requests]

theorem Serving.canSplit (serving : Serving cfg ID site t reqs n) (wide : Wide t.range)
    (more : 1 < t.left) : t.canSplit = true := by
  have exact := wide.itersLeft (by rw [Task.left] at more; omega)
  simp only [Task.canSplit, serving.loop, Bool.true_and, decide_eq_true_eq, splittable, exact]
  exact more

/-- The request taken out of the channel is answered by `split_loop`, which counts those
that are left. -/
theorem Serving.splits (serving : Serving cfg ID site t (req :: rest) n) (wide : Wide t.range)
    (more : 1 < t.left) :
    counting cfg ID (n.taking ID site t req) = (do
      let (split, n) ← splitLoop cfg ⟨[], rest.length⟩ ID t req (n.taking ID site t req)
      return n.goto (.recvReq (.pop site (some { t with range := t.range.lower split })))) := by
  have counted : requestsCounted cfg ID (n.taking ID site t req) = rest.length := by
    have known : requestsCounted cfg ID (n.taking ID site t req) =
        ((n.taking ID site t req).net.chanRequests ID).length :=
      requestsCounted_busy serving.left_busy serving.right_busy
    rw [known, serving.waiting]
  have none : (n.taking ID site t req).self.deque = [] := serving.deque
  have here : (n.taking ID site t req).self.pc = .handle (.pop site (some t)) req := rfl
  have other := (serving.others req List.mem_cons_self).1
  simp only [counting, counted, wstep, here, handleStep, popHandle, none, if_true, Option.filter,
    serving.canSplit wide more, if_pos other]

/-- One turn of the loop of `RT_pop`: `t` can be split, the first thief receives the
upper end of its range, and the rest is as it was. -/
theorem serve_one (adaptive : cfg.split = .adaptive)
    (serving : Serving cfg ID site t (req :: rest) n) (can : CanRegister ID t n)
    (wide : Wide t.range) (enough : (rest.length : ℤ) + 2 ≤ t.left) :
    t.canSplit = true ∧ ∃ dup n',
      serve cfg ID 1 n = .ok n' ∧
      dup.range = t.range.upper (t.range.stop - t.left / (rest.length + 2)) ∧
      Serving cfg ID site
        { t with range := t.range.lower (t.range.stop - t.left / (rest.length + 2)) } rest n' ∧
      (n.self.frames ≠ [] → n'.self.frames ≠ []) ∧
      n'.net.chanTasks =
        (n.net.putTask req.ID req.chan (some (.tasks [dup] req.state))).chanTasks := by
  have more : 1 < t.left := by omega
  have share : max (t.left / (rest.length + 2)) 1 = t.left / (rest.length + 2) := by
    apply max_eq_left
    exact Int.le_ediv_of_mul_le (by omega) (by omega)
  obtain ⟨dup, n₂, ran, range, untouched, sent⟩ :=
    @splitLoop_adaptive cfg ID (n.taking ID site t req) t req ⟨[], rest.length⟩ adaptive
      (serving.others req List.mem_cons_self).1 can wide more (serving.slots req List.mem_cons_self)
  dsimp only at ran range
  rw [share] at ran range
  have served := serving.splits wide more
  rw [ran, ok_bind] at served
  refine ⟨serving.canSplit wide more, dup, n₂.goto _, ?_, range,
    ⟨rfl, ?_, ?_, ?_, serving.loop, ?_, ?_, ?_, ?_⟩, ?_, ?_⟩
  · simp only [serve, serving.takes, ok_bind, served]
    rfl
  · exact untouched.deque.trans serving.deque
  · exact fun exist => untouched.left_idle.trans (serving.left_busy exist)
  · exact fun exist => untouched.right_idle.trans (serving.right_busy exist)
  · change n₂.net.chanRequests ID = rest
    rw [untouched.requests, serving.waiting]
  · exact fun later member => serving.others later (List.mem_cons_of_mem req member)
  · intro later member
    have apart := serving.apart
    rw [List.map_cons, List.nodup_cons] at apart
    have differ : ¬ (later.ID = req.ID ∧ later.chan = req.chan) := by
      rintro ⟨sameID, sameChan⟩
      exact apart.1 (List.mem_map.mpr ⟨later, member, by rw [sameID, sameChan]⟩)
    change n₂.net.chanTasks later.ID later.chan = none
    rw [sent, chanTasks_putTask_other differ]
    exact serving.slots later (List.mem_cons_of_mem req member)
  · exact (List.nodup_cons.mp serving.apart).2
  · exact fun some => untouched.frames some
  · exact sent

/-- If the future of the part cannot be registered, the first request is not served:
`split_loop` follows a null pointer. -/
theorem serve_faults (adaptive : cfg.split = .adaptive)
    (serving : Serving cfg ID site t (req :: rest) n) (cannot : ¬ CanRegister ID t n)
    (wide : Wide t.range) (more : 1 < t.left) (k : ℕ) :
    serve cfg ID (k + 1) n = .error (.fault .splitLoopNullTask) := by
  have failed := @splitLoop_faults cfg ID (n.taking ID site t req) t req ⟨[], rest.length⟩ adaptive
    (serving.others req List.mem_cons_self).1 cannot wide more
  simp only [serve, serving.takes, ok_bind, serving.splits wide more, failed]
  rfl

/-! ## All requests -/

/-- Serving one more thief leaves enough for those after it: an iteration for each of them and
one for the worker. -/
theorem enough_left {k : ℕ} {left : ℤ} (enough : (k : ℤ) + 2 ≤ left) :
    (k : ℤ) + 1 ≤ left - left / (k + 2) := by
  have one : 1 ≤ left / (k + 2) := Int.le_ediv_of_mul_le (by omega) (by omega)
  have next := one.trans (next_bounds left k).1
  have := Int.mul_le_of_le_ediv (by omega) next
  omega

theorem serve_add {j k : ℕ} {n₁ : Node} (first : serve cfg ID j n = .ok n₁) :
    serve cfg ID (j + k) n = serve cfg ID k n₁ := by
  induction j generalizing n with
  | zero =>
    cases first
    rw [Nat.zero_add]
  | succ j ih =>
    rw [Nat.succ_add, serve]
    rw [serve] at first
    cases once : counting cfg ID n with
    | error stop =>
      rw [once] at first
      cases first
    | ok mid =>
      rw [once, ok_bind] at first
      rw [ok_bind]
      cases twice : counting cfg ID mid with
      | error stop =>
        rw [twice] at first
        cases first
      | ok last =>
        rw [twice, ok_bind] at first
        rw [ok_bind]
        exact ih first

/-- What `RT_pop` has done when all requests have been served: the sizes are those of
`EqualShares`. -/
structure Served (cfg : Config) (ID : ℕ) (site : Site) (t : Task) (reqs : List StealRequest)
    (n : Node) (t' : Task) (parts : List Task) (n' : Node) : Prop where
  ran : serve cfg ID reqs.length n = .ok n'
  after : Serving cfg ID site t' [] n'
  cur : t'.range.cur = t.range.cur
  rest : t'.left = kept reqs.length t.left
  sizes : parts.map Task.left = shares reqs.length t.left
  /-- Every thief finds its part in its channel. -/
  sent : List.Forall₂ (fun req part =>
    n'.net.chanTasks req.ID req.chan = some (.tasks [part] req.state)) reqs parts
  /-- No other channel is written. -/
  elsewhere : ∀ owner chan, (owner, chan) ∉ reqs.map (fun req => (req.ID, req.chan)) →
    n'.net.chanTasks owner chan = n.net.chanTasks owner chan
  /-- Before each request the task could be split. -/
  splittable : ∀ k < reqs.length, ∃ nk tk, serve cfg ID k n = .ok nk ∧
    nk.self.pc = .recvReq (.pop site (some tk)) ∧ nk.self.deque = [] ∧ tk.canSplit = true

theorem serve_all (adaptive : cfg.split = .adaptive) (serving : Serving cfg ID site t reqs n)
    (can : CanRegister ID t n) (wide : Wide t.range) (enough : (reqs.length : ℤ) + 1 ≤ t.left) :
    ∃ t' parts n', Served cfg ID site t reqs n t' parts n' := by
  induction reqs generalizing t n with
  | nil =>
    exact ⟨t, [], n, rfl, serving, rfl, rfl, rfl, .nil, fun _ _ _ => rfl, fun k few =>
      absurd few (by simp)⟩
  | cons req rest ih =>
    rw [List.length_cons] at enough
    push_cast at enough
    obtain ⟨splits, dup, n₁, once, range, serving₁, frames, sent⟩ :=
      serve_one adaptive serving can wide (by omega)
    have share : 1 ≤ t.left / (rest.length + 2) := Int.le_ediv_of_mul_le (by omega) (by omega)
    have fewer : (rest.length : ℤ) + 1 ≤ t.left - t.left / (rest.length + 2) :=
      enough_left (by omega)
    generalize shortened : Task.mk _ _ _ _ _ _ _ _ _ = t₁ at serving₁
    have left₁ : t₁.left = t.left - t.left / (rest.length + 2) := by
      rw [← shortened]
      simp only [Task.left, LoopRange.lower]
      omega
    have cur₁ : t₁.range.cur = t.range.cur := by rw [← shortened]; rfl
    have wide₁ : Wide t₁.range := by
      obtain ⟨curFits, stopFits, widthFits⟩ := wide
      simp only [InLong, Task.left] at *
      exact ⟨by rwa [cur₁], by constructor <;> omega, by constructor <;> omega⟩
    have can₁ : CanRegister ID t₁ n₁ := by
      rw [← shortened]
      exact can.imp_right fun current => current.imp_right frames
    obtain ⟨t', parts, n', later⟩ := ih serving₁ can₁ wide₁ (by omega)
    have apart := serving.apart
    rw [List.map_cons, List.nodup_cons] at apart
    refine ⟨t', dup :: parts, n', ?_, later.after, later.cur.trans cur₁, ?_, ?_, ?_, ?_, ?_⟩
    · rw [List.length_cons, Nat.add_comm, serve_add once]
      exact later.ran
    · rw [later.rest, left₁]
      rfl
    · have size : dup.left = t.left / (rest.length + 2) := by
        simp only [Task.left, range, LoopRange.upper]
        omega
      rw [List.map_cons, later.sizes, size, left₁]
      rfl
    · refine .cons ?_ later.sent
      rw [later.elsewhere _ _ apart.1, sent]
      simp [Network.putTask]
    · intro owner chan absent
      rw [List.map_cons, List.mem_cons, not_or] at absent
      rw [later.elsewhere owner chan absent.2, sent, chanTasks_putTask_other]
      rintro ⟨rfl, rfl⟩
      exact absent.1 rfl
    · intro k few
      cases k with
      | zero => exact ⟨n, t, rfl, serving.pc, serving.deque, splits⟩
      | succ k =>
        obtain ⟨nk, tk, ran, atLoop⟩ := later.splittable k (Nat.lt_of_succ_lt_succ few)
        refine ⟨nk, tk, ?_, atLoop⟩
        rw [Nat.add_comm, serve_add once]
        exact ran

/-! ## The requests of a running program -/

section Reachable

variable {s : State}

theorem chanRequests_le (worker : ID < cfg.numWorkers) :
    (s.net.chanRequests ID : Multiset StealRequest) ≤ s.requests cfg := by
  rw [State.requests, gather_split worker, add_assoc]
  exact Multiset.le_add_right _ _

theorem count_pairs (reqs : List StealRequest) (w chan : ℕ) :
    (reqs.map fun req => (req.ID, req.chan)).count (w, chan) =
      (((reqs : Multiset StealRequest).filter fun req => req.ID = w).map
        StealRequest.chan).count chan := by
  induction reqs with
  | nil => rfl
  | cons req rest ih =>
    rw [List.map_cons, List.count_cons, ih, ← Multiset.cons_coe]
    by_cases owner : req.ID = w
    · by_cases same : req.chan = chan
      · simp [owner, same]
      · simp [owner, same]
    · simp [owner]

/-- The requests in a channel name channels that are empty, no two of them the same, so that
every thief can be sent its part. -/
theorem Refines.answerable (ok : Refines cfg s) (worker : ID < cfg.numWorkers) :
    (∀ req ∈ s.net.chanRequests ID, s.net.chanTasks req.ID req.chan = none) ∧
      ((s.net.chanRequests ID).map fun req => (req.ID, req.chan)).Nodup := by
  have inv := TokenProtocol.reachable_inv cfg.someSteal ok.ring
  have places (req : StealRequest) (member : req ∈ s.net.chanRequests ID) :
      ((s.requestsOf cfg req.ID).map StealRequest.chan).count req.chan +
        (if (s.net.chanTasks req.ID req.chan).isSome then 1 else 0) ≤ 1 := by
    have present : req ∈ s.requests cfg :=
      Multiset.mem_of_le (chanRequests_le worker) (Multiset.mem_coe.mpr member)
    have token : req.token ∈ (s.ring cfg).tokens.map Prod.snd := by
      rw [ring_tokens_snd]
      exact Multiset.mem_map_of_mem _ present
    obtain ⟨⟨p, r⟩, located, same⟩ := Multiset.mem_map.mp token
    have owner : req.ID < cfg.numWorkers := by
      have := inv.token_owner_lt located
      rwa [show r = req.token from same] at this
    have account := ok.account owner
    have inside := account.known.2 req (Multiset.mem_filter.mpr ⟨present, rfl⟩)
    have := account.places req.chan inside
    omega
  have counted (w chan : ℕ) :
      ((s.net.chanRequests ID).map fun req => (req.ID, req.chan)).count (w, chan) ≤
        ((s.requestsOf cfg w).map StealRequest.chan).count chan := by
    rw [count_pairs]
    exact Multiset.count_le_of_le chan (Multiset.map_le_map (Multiset.filter_le_filter _
      (chanRequests_le worker)))
  constructor
  · intro req member
    have one : 1 ≤ ((s.net.chanRequests ID).map fun req => (req.ID, req.chan)).count
        (req.ID, req.chan) :=
      List.one_le_count_iff.mpr (List.mem_map.mpr ⟨req, member, rfl⟩)
    have more := counted req.ID req.chan
    have few := places req member
    cases slot : s.net.chanTasks req.ID req.chan with
    | none => rfl
    | some message =>
      rw [slot] at few
      simp only [Option.isSome_some, if_true] at few
      omega
  · rw [List.nodup_iff_count_le_one]
    rintro ⟨w, chan⟩
    by_cases member : (w, chan) ∈ (s.net.chanRequests ID).map fun req => (req.ID, req.chan)
    · obtain ⟨req, present, same⟩ := List.mem_map.mp member
      cases same
      have few := places req present
      have more := counted req.ID req.chan
      omega
    · rw [List.count_eq_zero_of_not_mem member]
      omega

/-- In a running program nothing but the situation itself has to be asked for. -/
theorem reachable_serving (reached : (system cfg).Reachable s) (running : s.net.exiting = false)
    (worker : ID < cfg.numWorkers) (pc : (s.workers ID).pc = .recvReq (.pop site (some t)))
    (deque : (s.workers ID).deque = [])
    (left : cfg.leftChild ID ≠ none → (s.workers ID).leftSubtreeIsIdle = false)
    (right : cfg.rightChild ID ≠ none → (s.workers ID).rightSubtreeIsIdle = false)
    (loop : t.splittable = true)
    (others : ∀ req ∈ s.net.chanRequests ID, req.ID ≠ ID ∧ req.state ≠ .failed) :
    Serving cfg ID site t (s.net.chanRequests ID) (s.node ID) := by
  obtain ⟨slots, apart⟩ := (reachable_refines reached running).answerable worker
  exact ⟨pc, deque, left, right, loop, rfl, others, slots, apart⟩

end Reachable

/-- All thieves are served, the loop can be split before each, and everybody's part, the
worker's own included, is an equal share rounded down or up, never smaller than that of
someone served before. -/
def SharedEqually (cfg : Config) (ID : ℕ) (site : Site) (t : Task) (reqs : List StealRequest)
    (n : Node) : Prop :=
  ∃ t' parts n', serve cfg ID reqs.length n = .ok n' ∧
    n'.self.pc = .recvReq (.pop site (some t')) ∧ n'.net.chanRequests ID = [] ∧
    t'.range.cur = t.range.cur ∧ Balanced reqs.length t.left t'.left ∧
    List.Forall₂ (fun req part =>
      n'.net.chanTasks req.ID req.chan = some (.tasks [part] req.state)) reqs parts ∧
    (∀ part ∈ parts, Balanced reqs.length t.left part.left) ∧
    (parts.map Task.left).Pairwise (· ≤ ·) ∧
    (parts.map Task.left).sum + t'.left = t.left ∧
    ∀ k < reqs.length, ∃ nk tk, serve cfg ID k n = .ok nk ∧
      nk.self.pc = .recvReq (.pop site (some tk)) ∧ nk.self.deque = [] ∧ tk.canSplit = true

theorem sharedEqually_of_canRegister (adaptive : cfg.split = .adaptive)
    (serving : Serving cfg ID site t reqs n) (enough : (reqs.length : ℤ) + 1 ≤ t.left)
    (can : CanRegister ID t n) (wide : Wide t.range) : SharedEqually cfg ID site t reqs n := by
  obtain ⟨t', parts, n', served⟩ := serve_all adaptive serving can wide enough
  refine ⟨t', parts, n', served.ran, served.after.pc, served.after.requests, served.cur, ?_,
    served.sent, ?_, ?_, ?_, served.splittable⟩
  · rw [served.rest]
    exact kept_balanced
  · intro part member
    apply shares_balanced
    rw [← served.sizes]
    exact List.mem_map_of_mem member
  · rw [served.sizes]
    exact shares_sorted
  · rw [served.sizes, served.rest]
    exact sum_shares_add_kept

/-- A loop of which at least `m + 1` iterations are left, and `m` thieves: the loop is
shared equally if and only if it has no future, or the worker has a current task with
which the futures of the parts are registered. -/
theorem thieves_get_equal_shares_iff (cfg : Config) (adaptive : cfg.split = .adaptive) (ID : ℕ)
    (site : Site) (t : Task) (reqs : List StealRequest) (n : Node)
    (serving : Serving cfg ID site t reqs n) (some : reqs ≠ [])
    (enough : (reqs.length : ℤ) + 1 ≤ t.left) (wide : Wide t.range) :
    SharedEqually cfg ID site t reqs n ↔ CanRegister ID t n := by
  constructor
  · intro shared
    by_contra cannot
    obtain ⟨t', parts, n', ran, -⟩ := shared
    cases reqs with
    | nil => exact some rfl
    | cons req rest =>
      rw [List.length_cons] at ran enough
      rw [serve_faults adaptive serving cannot wide (by push_cast at enough; omega)] at ran
      cases ran
  · intro can
    exact sharedEqually_of_canRegister adaptive serving enough can wide

/-- Worker 1 runs a task that leaves a loop over [0, 10) behind, and returns.  By then the
requests of the other two workers have arrived. -/
def sharingSchedule (future : Bool) : List (ℕ × Choice) :=
  (0, .plain (.spawn none false)) :: runsOn 0 3 ++ runsOn 1 5 ++ runsOn 0 5 ++ runsOn 2 5 ++
    runsOn 1 2 ++ (1, .plain (.spawn (some (0, 10)) future)) :: runsOn 1 3 ++ runsOn 0 4 ++
    (0, .plain .barrier) :: runsOn 0 5 ++ (1, .plain (.finish [])) :: runsOn 1 2

/-- The loop worker 1 has popped. -/
def sharedLoop (future : Bool) : Task where
  id := 1
  addr := 2
  parent := 1
  splittable := true
  range := ⟨0, 0, 10⟩
  iter := none
  victim := 0
  future := if future then some 0 else none
  futures := []

/-- The state worker 1 is in then. -/
def sharing (future : Bool) : State := after (.makefile 3 three_pos) (sharingSchedule future)

theorem sharing_serving (future : Bool) : Serving (.makefile 3 three_pos) 1 .schedule
    (sharedLoop future) ((sharing future).net.chanRequests 1) ((sharing future).node 1) := by
  have reached := after_reachable (.makefile 3 three_pos) (sharingSchedule future)
  cases future with
  | false =>
    exact reachable_serving reached (by decide +kernel) (by decide) (by decide +kernel)
      (by decide +kernel) (by decide +kernel) (by decide +kernel) rfl (by decide +kernel)
  | true =>
    exact reachable_serving reached (by decide +kernel) (by decide) (by decide +kernel)
      (by decide +kernel) (by decide +kernel) (by decide +kernel) rfl (by decide +kernel)

/-- Ten iterations for two thieves and the worker itself. -/
theorem thieves_get_equal_shares_ten :
    ((sharing false).net.chanRequests 1).length = 2 ∧ (sharedLoop false).left = 10 ∧
    ∃ (t' : Task) (parts : List Task) (n' : Node),
      serve (.makefile 3 three_pos) 1 2 ((sharing false).node 1) = .ok n' ∧
      (t'.left = 3 ∨ t'.left = 4) ∧ parts.length = 2 ∧
      ∀ part ∈ parts, part.left = 3 ∨ part.left = 4 := by
  have two : ((sharing false).net.chanRequests 1).length = 2 := by decide +kernel
  obtain ⟨t', parts, n', ran, -, -, -, rest, sent, balanced, -⟩ :=
    (thieves_get_equal_shares_iff (.makefile 3 three_pos) rfl 1 .schedule (sharedLoop false) _ _
      (sharing_serving false) (by intro none; simp [none] at two) (by rw [two]; decide)
      ⟨by decide, by decide, by decide⟩).mpr (.inl rfl)
  rw [two] at ran rest balanced
  exact ⟨two, rfl, t', parts, n', ran, rest, by rw [← sent.length_eq, two], balanced⟩

/-- The same loop with a future: worker 1 has no current task, and `split_loop` follows a
null pointer when it registers the future of the first thief's part. -/
theorem future_loop_is_not_shared :
    (system (.makefile 3 three_pos)).Reachable (sharing true) ∧
    Serving (.makefile 3 three_pos) 1 .schedule (sharedLoop true)
      ((sharing true).net.chanRequests 1) ((sharing true).node 1) ∧
    ((sharing true).net.chanRequests 1).length = 2 ∧ (sharedLoop true).left = 10 ∧
    serve (.makefile 3 three_pos) 1 1 ((sharing true).node 1) =
      .error (.fault .splitLoopNullTask) := by
  exact ⟨after_reachable _ _, sharing_serving true, by decide +kernel, rfl,
    error_of_failed (by decide +kernel)⟩

end Tasking.Runtime
