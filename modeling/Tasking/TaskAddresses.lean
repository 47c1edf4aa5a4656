import Tasking.Kinship
import Tasking.TaskConservation

/-!
Tasks and the addresses of their objects.  A task names its parent by address, and its own
object is used again as soon as it has returned.

Most of the runtime only moves tasks (`Retains`); `KinStep` says what the steps do that
create a task, return from one, or tell a child to leave.
-/
namespace Tasking.Runtime
open Fallible Kinship Function

/-! ## Tasks and their addresses -/

def Task.kin (t : Task) : Kin ℕ ℕ := ⟨t.id, t.addr, t.parent⟩

def kinOf (tasks : List Task) : Set (Kin ℕ ℕ) := {k | ∃ t ∈ tasks, t.kin = k}

def Network.kin (net : Network) : Set (Kin ℕ ℕ) :=
  {k | ∃ v c batch state, net.chanTasks v c = some (.tasks batch state) ∧ k ∈ kinOf batch}

/-- The tasks in the deque, being run, and in the channels. -/
def Node.stock (n : Node) : Set (Kin ℕ ℕ) :=
  kinOf n.self.deque ∪ kinOf (n.self.frames.map Frame.task) ∪ n.net.kin

/-- All tasks a worker can see. -/
def Node.live (n : Node) : Set (Kin ℕ ℕ) := kinOf n.self.pc.held.toList ∪ n.stock

section Retains

variable {n n' n'' : Node} {x x' : Worker}

/-- Variables that the handling of requests leaves alone. -/
structure KeepsTasks (x x' : Worker) : Prop where
  deque : x'.deque = x.deque
  frames : kinOf (x'.frames.map Frame.task) = kinOf (x.frames.map Frame.task)
  pc : x'.pc = x.pc
  freelist : x'.freelist = x.freelist

/-- Tasks are moved at most, and no object is allocated or freed. -/
structure Retains (n n' : Node) : Prop where
  stock : n'.stock ⊆ n.stock
  pc : n'.self.pc = n.self.pc
  freelist : n'.self.freelist = n.self.freelist
  nextAddr : n'.net.nextAddr = n.net.nextAddr
  nextId : n'.net.nextId = n.net.nextId

theorem Retains.refl : Retains n n := ⟨subset_rfl, rfl, rfl, rfl, rfl⟩

theorem Retains.trans (first : Retains n n') (second : Retains n' n'') : Retains n n'' :=
  ⟨second.stock.trans first.stock, second.pc.trans first.pc, second.freelist.trans first.freelist,
    second.nextAddr.trans first.nextAddr, second.nextId.trans first.nextId⟩

theorem KeepsTasks.retains {net net' : Network} (same : KeepsTasks x x')
    (tasks : net'.chanTasks = net.chanTasks) (nextAddr : net'.nextAddr = net.nextAddr)
    (nextId : net'.nextId = net.nextId) : Retains ⟨x, net⟩ ⟨x', net'⟩ := by
  refine ⟨?_, same.pc, same.freelist, nextAddr, nextId⟩
  simp only [Node.stock, Network.kin, same.deque, same.frames, tasks]
  exact subset_rfl

theorem kinOf_append (l m : List Task) : kinOf (l ++ m) = kinOf l ∪ kinOf m := by
  ext k
  simp [kinOf, or_and_right, exists_or]

theorem kinOf_cons (t : Task) (l : List Task) : kinOf (t :: l) = insert t.kin (kinOf l) := by
  ext k
  simp [kinOf, eq_comm]

theorem kinOf_nil : kinOf [] = ∅ := by
  ext k
  simp [kinOf]

theorem Network.kin_putTask (net : Network) (owner chan : ℕ) (message : Option Message) :
    (net.putTask owner chan message).kin ⊆ net.kin ∪
      {k | ∃ batch state, message = some (.tasks batch state) ∧ k ∈ kinOf batch} := by
  rintro k ⟨v, c, batch, state, slot, mem⟩
  simp only [putTask] at slot
  by_cases row : v = owner
  · subst row
    by_cases column : c = chan
    · subst column
      rw [update_self, update_self] at slot
      exact .inr ⟨batch, state, slot, mem⟩
    · rw [update_self, update_of_ne column] at slot
      exact .inl ⟨v, c, batch, state, slot, mem⟩
  · rw [update_of_ne row] at slot
    exact .inl ⟨v, c, batch, state, slot, mem⟩

theorem Network.kin_sendTasks (net : Network) (owner chan : ℕ) (batch : List Task)
    (answers : ReqState) : (net.sendTasks owner chan batch answers).kin ⊆ net.kin ∪ kinOf
    batch := by
  unfold sendTasks
  split
  · refine (net.kin_putTask owner chan _).trans (Set.union_subset_union_right _ ?_)
    rintro k ⟨batch', state, same, mem⟩
    cases same
    exact mem
  · exact Set.subset_union_left

/-! ### Handling requests -/

variable {cfg : Config} {o : Oracle} {w : ℕ} {req : StealRequest}

theorem KeepsTasks.refl : KeepsTasks x x := ⟨rfl, rfl, rfl, rfl⟩

theorem KeepsWork.keepsTasks (same : KeepsWork x x') : KeepsTasks x x' :=
  ⟨same.deque, by rw [same.frames], same.pc, same.freelist⟩

theorem Sheds.retains (same : Sheds n n') : Retains n n' :=
  KeepsTasks.retains ⟨same.deque, by rw [same.frames], same.pc, same.freelist⟩ same.chanTasks
    same.nextAddr same.nextId

theorem declineStealRequest_retains :
    Ensures (fun _ => True) (declineStealRequest cfg o w req n) (Retains n) :=
  declineStealRequest_sheds.mono fun _ same => same.retains

theorem kinOf_markVictim (batch : List Task) : kinOf (markVictim cfg w batch) = kinOf batch := by
  cases batch with
  | nil => rfl
  | cons t rest =>
    rw [markVictim, kinOf_cons, kinOf_cons]
    split <;> rfl

theorem sendTasks_counters (net : Network) (owner chan : ℕ) (batch : List Task)
    (answers : ReqState) :
    (net.sendTasks owner chan batch answers).nextAddr = net.nextAddr ∧
      (net.sendTasks owner chan batch answers).nextId = net.nextId := by
  unfold Network.sendTasks
  split <;> exact ⟨rfl, rfl⟩

theorem sendLoot_retains : Retains n (sendLoot cfg w req n) := by
  have parts : kinOf (takeLoot cfg req n.self.deque).2 ∪ kinOf (takeLoot cfg req n.self.deque).1 =
      kinOf n.self.deque := by
    rw [← kinOf_append]
    simp only [takeLoot, stealLast, List.take_append_drop]
  obtain ⟨nextAddr, nextId⟩ := sendTasks_counters
    { n.net with futures := convertFutures (takeLoot cfg req n.self.deque).1 n.net.futures }
    req.ID req.chan (markVictim cfg w (takeLoot cfg req n.self.deque).1) req.state
  refine ⟨?_, rfl, rfl, nextAddr, nextId⟩
  have sent := Network.kin_sendTasks
    { n.net with futures := convertFutures (takeLoot cfg req n.self.deque).1 n.net.futures }
    req.ID req.chan (markVictim cfg w (takeLoot cfg req n.self.deque).1) req.state
  rw [kinOf_markVictim] at sent
  simp only [Node.stock, ← parts]
  intro k mem
  rcases mem with (mem | mem) | mem
  · exact .inl (.inl (.inl mem))
  · exact .inl (.inr mem)
  · rcases sent mem with mem | mem
    · exact .inr mem
    · exact .inl (.inl (.inr mem))

theorem handleStealRequest_retains :
    Ensures (fun _ => True) (handleStealRequest cfg o w req n) (Retains n) := by
  unfold handleStealRequest
  split
  · simp only [ensures_bind, ensures_check, ensures_ite, implies_true, and_true]
    refine fun _ => ⟨fun _ => ?_, fun _ => declineStealRequest_retains⟩
    exact forgetReq_keepsWork.mono fun x same => same.keepsTasks.retains rfl rfl rfl
  · split
    · exact declineStealRequest_retains
    · exact sendLoot_retains

theorem trySendStealRequest_retains {idle : Bool} :
    Ensures (fun _ => True) (trySendStealRequest cfg o w idle n) (Retains n) := by
  have adapted := (adaptStrategy_keepsWork cfg n.self).keepsTasks
  refine trySendStealRequest_sent.mono fun n' out => ?_
  split at out
  · obtain ⟨sent, stack, self⟩ := out
    obtain ⟨chanTasks, nextAddr, nextId⟩ := sent.tasks
    refine KeepsTasks.retains ?_ chanTasks nextAddr nextId
    rw [self]
    exact ⟨adapted.deque, adapted.frames, adapted.pc, adapted.freelist⟩
  · rw [out]
    exact .refl

end Retains

/-! ## Steps -/

/-- The object comes from `RT_task_alloc`. -/
structure Allocates (n n' : Node) (addr : ℕ) : Prop where
  addr : (taskAlloc n).1 = addr
  freelist : n'.self.freelist = (taskAlloc n).2.self.freelist
  nextAddr : n'.net.nextAddr = (taskAlloc n).2.net.nextAddr

/-- The object was free, or is a new one. -/
theorem Allocates.source {n n' : Node} {addr : ℕ} (alloc : Allocates n n' addr) :
    n.self.freelist = addr :: n'.self.freelist ∧ n'.net.nextAddr = n.net.nextAddr ∨
      n'.self.freelist = n.self.freelist ∧ addr = n.net.nextAddr ∧
        n'.net.nextAddr = n.net.nextAddr + 1 := by
  obtain ⟨got, freelist, nextAddr⟩ := alloc
  cases free : n.self.freelist with
  | nil =>
    simp only [taskAlloc, free] at got freelist nextAddr
    exact .inr ⟨freelist, got.symm, nextAddr⟩
  | cons a rest =>
    simp only [taskAlloc, free] at got freelist nextAddr
    exact .inl ⟨by rw [got, freelist], nextAddr⟩

/-- The loop task a worker would split: the one it popped, or the current one. -/
def Worker.splits (x : Worker) : Option Task :=
  match x.pc with
  | .handle (.pop _ task) _ => task
  | _ => x.currentTask

/-- The tasks, task objects and identities before and after a step. -/
inductive KinStep (n n' : Node) : Prop where
  | moves (live : n'.live ⊆ n.live) (freelist : n'.self.freelist = n.self.freelist)
      (nextAddr : n'.net.nextAddr = n.net.nextAddr) (nextId : n'.net.nextId = n.net.nextId)
  /-- `ASYNC` and `FUTURE`. -/
  | spawns {addr : ℕ} (here : n.self.pc = .user) (alloc : Allocates n n' addr)
      (live : n'.live ⊆ insert ⟨n.net.nextId, addr, n.self.currentAddr⟩ n.live)
      (nextId : n'.net.nextId = n.net.nextId + 1)
  /-- `split_loop`: the copy has the parent of the task. -/
  | splits {addr : ℕ} {t : Task} (here : n.self.pc ≠ .user) (which : n.self.splits = some t)
      (known : t.kin ∈ n.live) (alloc : Allocates n n' addr)
      (live : n'.live ⊆ insert ⟨n.net.nextId, addr, t.parent⟩ n.live)
      (nextId : n'.net.nextId = n.net.nextId + 1)
  /-- `deque_task_cache`, after the current task returned. -/
  | finishes {frame : Frame} {rest : List Frame} (here : n.self.pc = .user)
      (frames : n.self.frames = frame :: rest) (live : n'.live ⊆ n.live)
      (freelist : n'.self.freelist = frame.task.addr :: n.self.freelist)
      (finished : n'.net.finished = n.net.finished ++ [frame.task.id])
      (nextAddr : n'.net.nextAddr = n.net.nextAddr) (nextId : n'.net.nextId = n.net.nextId)
  /-- `async_action`. -/
  | notifies {addr : ℕ} (alloc : Allocates n n' addr) (live : n'.live ⊆ n.live)
      (nextId : n'.net.nextId = n.net.nextId)

section Steps

variable {cfg : Config} {o : Oracle} {w : ℕ} {req : StealRequest} {n n' : Node} {x x' : Worker}
  {k : ReqCont} {t : Task} {site : Site} {pc : Pc}

theorem Retains.goes (kept : Retains n n')
    (held : kinOf pc.held.toList ⊆ kinOf n.self.pc.held.toList) : KinStep n (n'.goto pc) :=
  .moves (Set.union_subset_union held kept.stock) kept.freelist kept.nextAddr kept.nextId

theorem Retains.stays (kept : Retains n n') : KinStep n n' := by
  refine .moves (Set.union_subset_union ?_ kept.stock) kept.freelist kept.nextAddr kept.nextId
  rw [kept.pc]

theorem Retains.goes_without (kept : Retains n n') (held : pc.held = none) :
    KinStep n (n'.goto pc) := by
  refine kept.goes ?_
  rw [held]
  simp [kinOf_nil]

/-! ### Splitting -/

/-- What `split_loop` does to tasks and objects. -/
structure Split (n n' : Node) (parent : ℕ) : Prop where
  alloc : ∃ addr, Allocates n n' addr ∧
    n'.stock ⊆ insert ⟨n.net.nextId, addr, parent⟩ n.stock
  pc : n'.self.pc = n.self.pc
  nextId : n'.net.nextId = n.net.nextId + 1

theorem kinOf_frames_top {frame frame' : Frame} {rest : List Frame}
    (same : frame'.task.kin = frame.task.kin) :
    kinOf ((frame' :: rest).map Frame.task) = kinOf ((frame :: rest).map Frame.task) := by
  rw [List.map_cons, List.map_cons, kinOf_cons, kinOf_cons, same]

theorem registerFuture_keepsTasks {f : ℕ} :
    Ensures (fun _ => True) (registerFuture w f x) (KeepsTasks x) := by
  unfold registerFuture
  split
  · next frame rest frames =>
    refine ⟨rfl, ?_, rfl, rfl⟩
    rw [frames]
    exact kinOf_frames_top rfl
  · split
    · exact ⟨rfl, rfl, rfl, rfl⟩
    · trivial

theorem patchFuture_retains {dup : Task} :
    Ensures (fun _ => True) (patchFuture w dup n) fun out =>
      out.1.kin = dup.kin ∧ Retains n out.2 := by
  unfold patchFuture
  split
  · exact ⟨rfl, .refl⟩
  · rw [ensures_bind]
    exact registerFuture_keepsTasks.mono fun x same => ⟨rfl, same.retains rfl rfl rfl⟩

theorem taskAlloc_stock (n : Node) : (taskAlloc n).2.stock = n.stock ∧
    (taskAlloc n).2.self.pc = n.self.pc ∧ (taskAlloc n).2.net.nextId = n.net.nextId := by
  unfold taskAlloc
  split <;> exact ⟨rfl, rfl, rfl⟩

theorem splitLoop_split : Ensures (fun _ => True) (splitLoop cfg o w t req n)
    fun out => Split n out.2 t.parent := by
  obtain ⟨stock, pc, nextId⟩ := taskAlloc_stock n
  simp only [splitLoop, ensures_bind, ensures_check, implies_true, and_true]
  refine fun _ => Ensures.any.mono fun split _ => patchFuture_retains.mono ?_
  rintro ⟨dup, n'⟩ ⟨same, kept⟩
  rw [ensures_pure]
  have sent := Network.kin_sendTasks
    { n'.net with nextId := n'.net.nextId + 1, created := n'.net.created ++ [dup.id] }
    req.ID req.chan [dup] req.state
  obtain ⟨addrs, ids⟩ := sendTasks_counters
    { n'.net with nextId := n'.net.nextId + 1, created := n'.net.created ++ [dup.id] }
    req.ID req.chan [dup] req.state
  rw [kinOf_cons, kinOf_nil, same] at sent
  refine ⟨⟨(taskAlloc n).1, ⟨rfl, kept.freelist, addrs.trans kept.nextAddr⟩, ?_⟩,
    kept.pc.trans pc, ids.trans (congrArg (· + 1) (kept.nextId.trans nextId))⟩
  rintro k (mem | mem)
  · exact .inr (stock ▸ kept.stock (.inl mem))
  · rcases sent mem with mem | mem | mem
    · exact .inr (stock ▸ kept.stock (.inr mem))
    · left
      rw [mem, ← nextId]
      rfl
    · exact absurd mem (Set.notMem_empty k)

theorem shortenCurrent_keepsTasks {split : ℤ} : KeepsTasks x (x.shortenCurrent split) := by
  unfold Worker.shortenCurrent
  split
  · exact .refl
  · next frame rest frames =>
    refine ⟨rfl, ?_, rfl, rfl⟩
    rw [frames]
    exact kinOf_frames_top rfl

theorem Split.trans {n'' : Node} {parent : ℕ} (done : Split n n' parent)
    (kept : Retains n' n'') : Split n n'' parent := by
  obtain ⟨addr, alloc, stock⟩ := done.alloc
  exact ⟨⟨addr, ⟨alloc.addr, kept.freelist.trans alloc.freelist,
    kept.nextAddr.trans alloc.nextAddr⟩, kept.stock.trans stock⟩, kept.pc.trans done.pc,
    kept.nextId.trans done.nextId⟩

theorem Split.shortens {parent : ℕ} (done : Split n n' parent) {split : ℤ} :
    Split n { n' with self := n'.self.shortenCurrent split } parent :=
  done.trans (shortenCurrent_keepsTasks.retains rfl rfl rfl)

/-- The step of a worker that split a task. -/
theorem Split.goes (done : Split n n' t.parent) (here : n.self.pc ≠ .user)
    (which : n.self.splits = some t) (known : t.kin ∈ n.live)
    (held : kinOf pc.held.toList ⊆ kinOf n.self.pc.held.toList) : KinStep n (n'.goto pc) := by
  obtain ⟨addr, alloc, stock⟩ := done.alloc
  refine .splits here which known ⟨alloc.addr, alloc.freelist, alloc.nextAddr⟩ ?_ done.nextId
  rintro k (mem | mem)
  · exact .inr (.inl (held mem))
  · exact (stock mem).imp_right .inr

theorem Split.stays (done : Split n n' t.parent) (here : n.self.pc ≠ .user)
    (which : n.self.splits = some t) (known : t.kin ∈ n.live) : KinStep n n' := by
  have goes : KinStep n (n'.goto n.self.pc) := done.goes here which known subset_rfl
  rwa [← done.pc] at goes

theorem currentTask_live (current : n.self.currentTask = some t) : t.kin ∈ n.live := by
  refine .inr (.inl (.inr ⟨t, ?_, rfl⟩))
  simp only [Worker.currentTask, Option.map_eq_some_iff] at current
  obtain ⟨frame, top, rfl⟩ := current
  exact List.mem_map_of_mem (List.mem_of_head? top)

/-- `handle`: the current task is split, or tasks are moved. -/
theorem handle_kin : Ensures (fun _ => True) (handle cfg o w req n) fun out =>
    Retains n out.2 ∨ out.1 = true ∧ ∃ t, n.self.currentTask = some t ∧ Split n out.2 t.parent := by
  unfold handle
  split
  · rw [ensures_bind]
    exact handleStealRequest_retains.mono fun n' kept => .inl kept
  · dsimp only
    split
    · next t some =>
      have current : n.self.currentTask = Option.some t :=
        (Option.filter_eq_some_iff.mp some).1
      split
      · rw [ensures_bind]
        exact splitLoop_split.mono fun out done => .inr ⟨rfl, t, current, done.shortens⟩
      · rw [ensures_bind]
        exact forgetReq_keepsWork.mono fun x same => .inl (same.keepsTasks.retains rfl rfl rfl)
    · split
      · simp only [ensures_bind, ensures_check, ensures_pure, implies_true, and_true]
        exact fun _ => .inl .refl
      · rw [ensures_bind]
        exact declineStealRequest_retains.mono fun n' kept => .inl kept

/-! ### Program points -/

theorem Retains.runs (kept : Retains n n') {ret : Ret} (held : n.self.pc.held = some t) :
    KinStep n (runTask t ret n') := by
  refine .moves ?_ kept.freelist kept.nextAddr kept.nextId
  rintro k (mem | (mem | mem) | mem)
  · simp [runTask, Pc.held, kinOf_nil] at mem
  · exact .inr (kept.stock (.inl (.inl mem)))
  · simp only [runTask, List.map_cons, kinOf_cons] at mem
    rcases mem with rfl | mem
    · exact .inl ⟨t, by simp [held], rfl⟩
    · exact .inr (kept.stock (.inl (.inr mem)))
  · exact .inr (kept.stock (.inr mem))

theorem popStep_kin : KinStep n (popStep cfg site n) := by
  obtain ⟨parts, -⟩ := dequePop_facts site n.self
  have goes {pc : Pc} (held : pc.held = (dequePop site n.self).1) :
      KinStep n (Node.goto { n with self := { n.self with deque := (dequePop site n.self).2 } }
        pc) := by
    refine .moves ?_ rfl rfl rfl
    have deque := congrArg kinOf parts
    rw [kinOf_append] at deque
    rintro k (mem | (mem | mem) | mem)
    · exact .inr (.inl (.inl (deque ▸ .inl (held ▸ mem))))
    · exact .inr (.inl (.inl (deque ▸ .inr mem)))
    · exact .inr (.inl (.inr mem))
    · exact .inr (.inr mem)
  unfold popStep
  generalize dequePop site n.self = popped at goes
  obtain ⟨task, deque⟩ := popped
  cases task with
  | none => exact goes rfl
  | some t =>
    dsimp only
    split <;> exact goes rfl

theorem noRequest_kin (held : ∀ site task, k = .pop site task → n.self.pc.held = task) :
    KinStep n (noRequest cfg k n) := by
  have goes {pc : Pc} (empty : pc.held = none) : KinStep n (n.goto pc) :=
    Retains.refl.goes_without empty
  cases k with
  | push | poll => exact goes rfl
  | declineAll site =>
    simp only [noRequest, declined]
    split <;> exact goes rfl
  | force f => exact goes rfl
  | pop site task =>
    cases task with
    | some t => exact Retains.refl.runs (held site _ rfl)
    | none =>
      simp only [noRequest, popFailed]
      cases site with
      | schedule => exact goes rfl
      | force f => exact goes rfl
      | barrier =>
        dsimp only
        split
        · exact (KeepsTasks.retains ⟨rfl, rfl, rfl, rfl⟩ rfl rfl rfl : Retains n
            { n with self := { n.self with quiescent := true } }).goes_without rfl
        · split <;> exact goes rfl

theorem received_kin (held : ∀ site task, k = .pop site task → n.self.pc.held = task)
    (kept : Retains n n') : KinStep n (received w k req n') := by
  cases k with
  | push | poll | force f => exact kept.goes_without rfl
  | declineAll site =>
    simp only [received]
    split <;> exact kept.goes_without rfl
  | pop site task =>
    refine kept.goes ?_
    rw [held site task rfl]
    exact subset_rfl

theorem dropRequest_retains {i : ℕ} : Retains n { n with net := n.net.dropRequest i } :=
  KeepsTasks.refl.retains rfl rfl rfl

theorem recvReqStep_kin (here : n.self.pc = .recvReq k) :
    Ensures (fun _ => True) (recvReqStep cfg w k n) (KinStep n) := by
  have held : ∀ site task, k = .pop site task → n.self.pc.held = task := by
    rintro site task rfl
    rw [here]
    rfl
  unfold recvReqStep
  split
  · split
    · rw [ensures_bind]
      refine holdOn_keepsWork.mono fun x same => ?_
      exact (same.keepsTasks.retains rfl rfl rfl : Retains n ⟨x, n.net.dropRequest w⟩).stays
    · exact received_kin held dropRequest_retains
  · split
    · exact noRequest_kin held
    · refine Retains.refl.goes ?_
      rw [here]
      cases k <;> exact subset_rfl

theorem recvReqForStep_kin {scan : List ℕ} (here : n.self.pc = .recvReqFor k scan) :
    KinStep n (recvReqForStep cfg w k scan n) := by
  have held : ∀ site task, k = .pop site task → n.self.pc.held = task := by
    rintro site task rfl
    rw [here]
    rfl
  unfold recvReqForStep
  split
  · exact noRequest_kin held
  · split
    · exact received_kin held dropRequest_retains
    · refine Retains.refl.goes ?_
      rw [here]
      cases k <;> exact subset_rfl

theorem popHandle_kin {task : Option Task} (here : n.self.pc = .handle (.pop site task) req) :
    Ensures (fun _ => True)
    (popHandle cfg o w site task req n) (KinStep n) := by
  have held : n.self.pc.held = task := by rw [here]; rfl
  have busy : n.self.pc ≠ .user := by simp [here]
  unfold popHandle
  split
  · next t some =>
    obtain rfl : task = Option.some t := by
      split at some
      · exact (Option.filter_eq_some_iff.mp some).1
      · cases some
    split
    · rw [ensures_bind]
      refine splitLoop_split.mono ?_
      rintro ⟨split, n'⟩ done
      refine done.goes busy (by rw [Worker.splits, here]) (.inl ⟨t, by simp [held], rfl⟩) ?_
      rw [held]
      rintro k ⟨u, mem, rfl⟩
      obtain rfl := List.mem_singleton.mp mem
      exact ⟨t, List.mem_singleton_self t, rfl⟩
    · rw [ensures_bind]
      refine forgetReq_keepsWork.mono fun x same => ?_
      refine (same.keepsTasks.retains rfl rfl rfl : Retains n ⟨x, n.net⟩).goes ?_
      rw [held]
      exact subset_rfl
  · rw [ensures_bind]
    refine handleStealRequest_retains.mono fun n' kept => kept.goes ?_
    rw [held]
    exact subset_rfl

theorem handleStep_kin (here : n.self.pc = .handle k req) :
    Ensures (fun _ => True) (handleStep cfg o w k req n) (KinStep n) := by
  have busy : n.self.pc ≠ .user := by simp [here]
  cases k with
  | push | force f =>
    simp only [handleStep, ensures_bind]
    exact handleStealRequest_retains.mono fun n' kept => kept.goes_without rfl
  | poll =>
    simp only [handleStep, ensures_bind]
    refine handle_kin.mono ?_
    rintro out (kept | ⟨-, t, current, done⟩)
    · exact kept.goes_without rfl
    · refine done.goes busy ?_ (currentTask_live current) ?_
      · rw [Worker.splits, here, current]
      · rw [here]
        exact subset_rfl
  | pop site task => exact popHandle_kin here
  | declineAll site =>
    simp only [handleStep, ensures_bind]
    refine declineStealRequest_retains.mono fun n' kept => ?_
    simp only [ensures_pure, declined]
    split <;> exact kept.goes_without rfl

theorem shareDone_kin {k : ShareCont} (here : n.self.pc = .shareWork k) (kept : Retains n n') :
    Ensures (fun _ => True) (shareDone cfg w k n') (KinStep n) := by
  cases k with
  | push | poll => exact kept.goes_without rfl
  | pop site task =>
    refine kept.goes ?_
    rw [here]
    exact subset_rfl
  | got site t => exact kept.runs (by rw [here]; rfl)
  | exit addr =>
    simp only [shareDone, exitFn, ensures_bind, ensures_check, ensures_pure, implies_true, and_true]
    have closed : Retains n' { n' with net := { n'.net with exiting := true } } :=
      KeepsTasks.refl.retains rfl rfl rfl
    exact fun _ _ _ => (kept.trans closed).goes_without rfl

theorem shareStep_kin {k : ShareCont} (here : n.self.pc = .shareWork k) :
    Ensures (fun _ => True) (shareStep cfg o w k n) (KinStep n) := by
  have busy : n.self.pc ≠ .user := by simp [here]
  have which : n.self.splits = n.self.currentTask := by rw [Worker.splits, here]
  simp only [shareStep, ensures_bind]
  unfold shareRound
  split
  · exact shareDone_kin here .refl
  · simp only [ensures_bind, ensures_check, implies_true, and_true]
    refine fun _ => handle_kin.mono ?_
    rintro ⟨served, n'⟩ handled
    cases served with
    | false =>
      obtain kept : Retains n n' := handled.resolve_right fun both => Bool.false_ne_true both.1
      exact shareDone_kin here kept
    | true =>
      simp only [↓reduceIte, ensures_bind, ensures_pure]
      refine clearLifeline_keepsWork.mono fun x same => ?_
      have cleared : Retains n' { n' with self := x } := same.keepsTasks.retains rfl rfl rfl
      rcases handled with kept | ⟨-, t, current, done⟩
      · exact (kept.trans cleared).stays
      · exact (done.trans cleared).stays busy (which.trans current) (currentTask_live current)

theorem peekStep_kin {scan : List ℕ} : KinStep n (peekStep scan n) := by
  unfold peekStep
  split
  · exact Retains.refl.goes_without rfl
  · split <;> exact Retains.refl.goes_without rfl

theorem sendStep_kin {k : SendCont} (here : n.self.pc = .trySend k) :
    Ensures (fun _ => True) (sendStep cfg o w k n) (KinStep n) := by
  cases k with
  | enter site =>
    simp only [sendStep, ensures_bind]
    refine trySendStealRequest_retains.mono fun n' kept => ?_
    simp only [ensures_ite, ensures_bind, ensures_check, ensures_pure, implies_true, and_true]
    exact ⟨fun _ _ => kept.goes_without rfl, fun _ => kept.goes_without rfl⟩
  | failed site =>
    simp only [sendStep, ensures_bind]
    refine trySendStealRequest_retains.mono fun n' kept => ?_
    cases site with
    | force f => exact kept.goes_without rfl
    | schedule | barrier =>
      simp only [taskMissing, ensures_bind, ensures_check, ensures_ite, ensures_pure, implies_true,
        and_true]
      exact fun _ _ => ⟨fun _ => kept.goes_without rfl, fun _ => kept.goes_without rfl⟩
  | again f =>
    simp only [sendStep, ensures_bind]
    exact trySendStealRequest_retains.mono fun n' kept => kept.goes_without rfl
  | early site t =>
    simp only [sendStep, ensures_bind]
    refine trySendStealRequest_retains.mono fun n' kept => kept.goes ?_
    rw [here]
    exact subset_rfl

/-- The tasks of a message go to the deque and to the worker's hand. -/
theorem unpack_kin {i : ℕ} {message : Message} (slot : n.net.chanTasks w i = some message)
    (same : KeepsTasks n.self x) :
    Ensures (fun _ => True) (unpack cfg w site message x) fun x' =>
      KinStep n ⟨x', n.net.putTask w i none⟩ := by
  have emptied : (n.net.putTask w i none).kin ⊆ n.net.kin := by
    intro k mem
    rcases n.net.kin_putTask w i none mem with mem | ⟨_, _, wrong, _⟩
    · exact mem
    · cases wrong
  have lands {x' : Worker} (deque : kinOf (x'.pc.held.toList) ∪ kinOf x'.deque ⊆
      kinOf n.self.deque ∪ n.net.kin) (frames : x'.frames = x.frames)
      (freelist : x'.freelist = x.freelist) : KinStep n ⟨x', n.net.putTask w i none⟩ := by
    refine .moves ?_ (freelist.trans same.freelist) rfl rfl
    rintro k (mem | (mem | mem) | mem)
    · exact .inr ((deque (.inl mem)).imp_left .inl)
    · exact .inr ((deque (.inr mem)).imp_left .inl)
    · simp only [frames, same.frames] at mem
      exact .inr (.inl (.inr mem))
    · exact .inr (.inr (emptied mem))
  cases message with
  | exit addr =>
    refine lands ?_ rfl rfl
    simp only [Pc.held, Option.toList_none, kinOf_nil, Set.empty_union, same.deque]
    exact Set.subset_union_left
  | tasks batch state =>
    cases batch with
    | nil => trivial
    | cons t rest =>
      have within : kinOf [t] ∪ kinOf (rest ++ x.deque) ⊆ kinOf n.self.deque ∪ n.net.kin := by
        rw [← kinOf_append, List.singleton_append, ← List.cons_append, kinOf_append, same.deque]
        rintro k (mem | mem)
        · exact .inr ⟨w, i, _, state, slot, mem⟩
        · exact .inl mem
      simp only [unpack, ensures_ite, ensures_bind, ensures_check, ensures_pure, implies_true,
        and_true]
      exact ⟨fun _ _ => lands within rfl rfl, fun _ => lands within rfl rfl⟩

theorem recvTaskStep_kin {i : ℕ} :
    Ensures (fun _ => True) (recvTaskStep cfg w site i n) (KinStep n) := by
  unfold recvTaskStep
  split
  · simp only [ensures_bind, ensures_await, ensures_pure]
    have woken : Retains n { n with self := { n.self with inWait := false } } :=
      KeepsTasks.retains ⟨rfl, rfl, rfl, rfl⟩ rfl rfl rfl
    exact fun _ => woken.stays
  · split
    · next message slot =>
      simp only [ensures_bind]
      exact receivedTask_keepsWork.mono fun x same => unpack_kin slot same.keepsTasks
    · split <;> exact Retains.refl.goes_without rfl

theorem forceStep_kin {f : Awaited} {point : ReadyPoint} {ready : Bool} :
    Ensures (fun _ => True) (forceStep f point ready n) (KinStep n) := by
  have next : KinStep n (n.goto (point.next f)) := by
    refine Retains.refl.goes_without ?_
    cases point <;> rfl
  cases f with
  | foreign =>
    simp only [forceStep, ensures_pure]
    split
    · exact Retains.refl.goes_without rfl
    · exact next
  | own i =>
    simp only [forceStep, ensures_bind]
    refine Ensures.any.mono fun out _ => ?_
    cases out with
    | none => exact next
    | some content =>
      have stored : Retains n { n with net := n.net.setFuture i content } :=
        KeepsTasks.refl.retains rfl rfl rfl
      exact stored.goes_without rfl

/-! ### User code -/

theorem newTask_kin (loop : Option (ℤ × ℤ)) (future : Bool) :
    (newTask w loop future n).1.kin = ⟨n.net.nextId, (taskAlloc n).1, n.self.currentAddr⟩ ∧
      Allocates n (newTask w loop future n).2 (taskAlloc n).1 ∧
      (newTask w loop future n).2.stock = n.stock ∧
      (newTask w loop future n).2.net.nextId = n.net.nextId + 1 := by
  have facts : (taskAlloc n).2.net.nextId = n.net.nextId ∧ (taskAlloc n).2.stock = n.stock ∧
      (taskAlloc n).2.self.currentAddr = n.self.currentAddr := by
    unfold taskAlloc
    split <;> exact ⟨rfl, rfl, rfl⟩
  obtain ⟨nextId, stock, currentAddr⟩ := facts
  refine ⟨?_, ⟨rfl, rfl, ?_⟩, ?_, ?_⟩
  · simp only [newTask, Task.kin, nextId, currentAddr]
  · cases future <;> rfl
  · rw [← stock]
    cases future <;> rfl
  · simp only [newTask, nextId]

theorem spawn_kin {loop : Option (ℤ × ℤ)} {future : Bool} (here : n.self.pc = .user) :
    Ensures (fun _ => True) (userStep w (.spawn loop future) n) (KinStep n) := by
  obtain ⟨kin, alloc, stock, nextId⟩ := @newTask_kin w n loop future
  have pushed {x : Worker} (deque : x.deque = (newTask w loop future n).1 ::
      (newTask w loop future n).2.self.deque)
      (frames : x.frames = (newTask w loop future n).2.self.frames)
      (pc : x.pc = .shareWork .push) (freelist : x.freelist =
        (newTask w loop future n).2.self.freelist) :
      KinStep n { (newTask w loop future n).2 with self := x } := by
    refine .spawns here ⟨alloc.addr, freelist.trans alloc.freelist, alloc.nextAddr⟩ ?_ nextId
    rw [Node.live, Node.stock, pc, deque, frames, kinOf_cons, kin]
    rintro k (mem | ((mem | mem) | mem) | mem)
    · simp [Pc.held, kinOf_nil] at mem
    · exact .inl mem
    · exact .inr (.inr (stock ▸ .inl (.inl mem)))
    · exact .inr (.inr (stock ▸ .inl (.inr mem)))
    · exact .inr (.inr (stock ▸ .inr mem))
  simp only [userStep, push, ensures_bind, ensures_ite, ensures_check, ensures_pure, implies_true,
    and_true]
  exact ⟨fun _ _ => pushed rfl rfl rfl rfl, fun _ => pushed rfl rfl rfl rfl⟩

theorem finish_kin {value : Value} (here : n.self.pc = .user) :
    Ensures (fun _ => True) (finish value n) (KinStep n) := by
  unfold finish
  split
  · trivial
  · next frame rest frames =>
    have returned {net : Network} (tasks : net.chanTasks = n.net.chanTasks)
        (finished : net.finished = n.net.finished) (nextAddr : net.nextAddr = n.net.nextAddr)
        (nextId : net.nextId = n.net.nextId) : KinStep n ⟨n.self.popFrame frame rest,
          { net with finished := net.finished ++ [frame.task.id] }⟩ := by
      refine .finishes here frames ?_ rfl (by rw [← finished]) nextAddr nextId
      rintro k (mem | (mem | mem) | mem)
      · simp [Worker.popFrame, (frame.ret.next_facts).2.2.2.1, kinOf_nil] at mem
      · exact .inr (.inl (.inl mem))
      · refine .inr (.inl (.inr ?_))
        rw [frames, List.map_cons, kinOf_cons]
        exact .inr mem
      · refine .inr (.inr ?_)
        simpa only [Network.kin, tasks] using mem
    split
    · exact returned rfl rfl rfl rfl
    · simp only [ensures_bind, ensures_await, ensures_pure]
      exact fun _ => Ensures.any.mono fun written _ => returned rfl rfl rfl rfl

theorem awaitOwn_kin {f : ℕ} (kept : Retains n n') : KinStep n (awaitOwn f n') := by
  have asked (content : LazyFuture) : Retains n' { n' with net := n'.net.setFuture f content } :=
    KeepsTasks.refl.retains rfl rfl rfl
  exact (kept.trans (asked _)).goes_without rfl

theorem reduce_kin : KinStep n (reduce w n) := by
  unfold reduce
  split
  · exact Retains.refl.stays
  · next f rest _ =>
    have taken : Retains n { n with self := n.self.setCurrentFutures rest } := by
      refine KeepsTasks.retains ?_ rfl rfl rfl
      unfold Worker.setCurrentFutures
      split
      · next frame rest' frames =>
        refine ⟨rfl, ?_, rfl, rfl⟩
        rw [frames]
        exact kinOf_frames_top rfl
      · exact ⟨rfl, rfl, rfl, rfl⟩
    dsimp only
    split
    · exact awaitOwn_kin taken
    · exact taken.goes_without rfl

theorem asyncFor_keepsTasks : Ensures (fun _ => True) (asyncFor x) (KeepsTasks x) := by
  unfold asyncFor
  split
  · trivial
  · next frame rest frames =>
    simp only [ensures_bind, ensures_check, ensures_pure, implies_true, and_true]
    refine fun _ _ => ⟨rfl, ?_, rfl, rfl⟩
    rw [frames]
    exact kinOf_frames_top rfl

theorem iterate_keepsTasks : Ensures (fun _ => True) (iterate x) fun x' =>
    ∃ y, KeepsTasks x y ∧ x' = { y with pc := .shareWork .poll } := by
  unfold iterate
  split
  · trivial
  · next frame rest frames =>
    split
    · trivial
    · simp only [ensures_bind, ensures_await, ensures_pure]
      refine fun _ => ⟨{ x with frames := _ :: rest }, ⟨rfl, ?_, rfl, rfl⟩, rfl⟩
      rw [frames]
      exact kinOf_frames_top rfl

theorem userStep_kin {act : UserAct} (here : n.self.pc = .user) :
    Ensures (fun _ => True) (userStep w act n) (KinStep n) := by
  cases act with
  | spawn loop future => exact spawn_kin here
  | poll => exact Retains.refl.goes_without rfl
  | await f =>
    cases f with
    | foreign => exact Retains.refl.goes_without rfl
    | own f =>
      simp only [userStep, ensures_bind, ensures_await, ensures_pure]
      exact fun _ => awaitOwn_kin .refl
  | reduce => exact reduce_kin
  | barrier =>
    simp only [userStep, ensures_ite, ensures_bind, ensures_check, ensures_pure, implies_true,
      and_true]
    exact ⟨fun _ => Retains.refl.stays, fun _ _ => Retains.refl.goes_without rfl⟩
  | exit =>
    simp only [userStep, exitFn, ensures_bind, ensures_await, ensures_check, ensures_pure,
      implies_true, and_true]
    have closed : Retains n { n with net := { n.net with exiting := true } } :=
      KeepsTasks.refl.retains rfl rfl rfl
    exact fun _ _ _ _ => closed.goes_without rfl
  | asyncFor =>
    simp only [userStep, ensures_bind, ensures_pure]
    refine asyncFor_keepsTasks.mono fun x same => ?_
    exact (same.retains rfl rfl rfl : Retains n { n with self := x }).stays
  | iterate =>
    simp only [userStep, ensures_bind, ensures_pure]
    refine iterate_keepsTasks.mono ?_
    rintro _ ⟨y, same, rfl⟩
    exact (same.retains rfl rfl rfl : Retains n { n with self := y }).goes_without rfl
  | finish value => exact finish_kin here

/-! ### Leaving -/

theorem notifyChild_kin {child : Option ℕ} (held : pc.held = none) :
    Ensures (fun _ => True) (notifyChild child n) fun n' => ∀ finished count,
      KinStep n (Node.goto { n' with self := { n'.self with
        taskingFinished := finished, numTasksExec := count } } pc) := by
  cases child with
  | none =>
    intro finished count
    exact (KeepsTasks.retains ⟨rfl, rfl, rfl, rfl⟩ rfl rfl rfl : Retains n
      { n with self := { n.self with
        taskingFinished := finished, numTasksExec := count } }).goes_without held
  | some c =>
    obtain ⟨stock, pc, nextId⟩ := taskAlloc_stock n
    simp only [notifyChild, ensures_bind, ensures_check, ensures_pure, implies_true, and_true]
    intro _ finished count
    refine .notifies ⟨rfl, rfl, rfl⟩ ?_ nextId
    rintro k (mem | mem | mem)
    · simp [Node.goto, held, kinOf_nil] at mem
    · exact .inr (stock ▸ .inl mem)
    · rcases Network.kin_putTask _ _ _ _ mem with mem | ⟨_, _, wrong, _⟩
      · exact .inr (stock ▸ .inr mem)
      · cases wrong

theorem wstep_kin (c : Choice) : Ensures (fun _ => True) (wstep cfg w c n) (KinStep n) := by
  unfold wstep
  split
  · next here => exact userStep_kin here
  · exact popStep_kin
  · next here => exact shareStep_kin here
  · exact peekStep_kin
  · next here => exact recvReqStep_kin here
  · next here => exact recvReqForStep_kin here
  · next here => exact handleStep_kin here
  · next here => exact sendStep_kin here
  · exact recvTaskStep_kin
  · exact forceStep_kin
  · simp only [ensures_bind, ensures_check, ensures_pure, implies_true, and_true]
    exact fun _ => Retains.refl.goes_without rfl
  · rw [ensures_bind]
    exact (notifyChild_kin rfl).mono fun n' rule =>
      rule n'.self.taskingFinished n'.self.numTasksExec
  · rw [ensures_bind]
    exact (notifyChild_kin rfl).mono fun n' rule => rule true (exitCount w n'.self.numTasksExec)
  · trivial

end Steps

end Tasking.Runtime
