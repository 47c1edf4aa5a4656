import Tasking.TaskAddresses

/-!
Whose child a task is.  `deque_pop` takes the first task of the deque for a child of the
current task if its `parent` is the current task's address.

The state does not say who spawned a task, so the runtime is run with a history beside it:
`descents` takes the steps of `system` and keeps the spawner of every task.  In a run that
does not use an object again while a child of its former task is around, the addresses
agree with the history (`Descent.Inv`).
-/
namespace Tasking.Runtime
open Fallible Family Kinship Custody Function Transition

/-! ## The history -/

structure Descent where
  state : State
  /-- The task that spawned a task; the root has no identity. -/
  spawner : ℕ → Option ℕ

/-- Who spawns the task a worker creates: the current task or, for a part split off a
loop, whoever spawned the loop. -/
def Worker.origin (x : Worker) (spawner : ℕ → Option ℕ) : Option ℕ :=
  if x.pc = .user then x.currentTask.map Task.id else x.splits.bind fun t => spawner t.id

/-- The history after worker `w` moved. -/
def Descent.record (r : Descent) (w : ℕ) (n : Node) : ℕ → Option ℕ :=
  if n.net.nextId = r.state.net.nextId then r.spawner
  else update r.spawner r.state.net.nextId ((r.state.workers w).origin r.spawner)

def Descent.move (cfg : Config) (party : ℕ × Choice) (r : Descent) : Checked Descent := do
  await (party.1 < cfg.numWorkers)
  let n ← wstep cfg party.1 party.2 (r.state.node party.1)
  return ⟨r.state.put party.1 n, r.record party.1 n⟩

def Descent.init (cfg : Config) : Descent := ⟨State.init cfg, fun _ => none⟩

def descents (cfg : Config) : System Descent :=
  .ofMoves (.init cfg) (Descent.move cfg)

/-- The tasks that are not finished. -/
def State.live (cfg : Config) (s : State) : Set (Kin ℕ ℕ) :=
  {k | (∃ w < cfg.numWorkers, k ∈ kinOf ((s.workers w).pc.held.toList ++ (s.workers w).deque ++
    (s.workers w).frames.map Frame.task)) ∨ k ∈ s.net.kin}

/-- An object that is used again is no task's parent any more.  The runtime does not look: tasks
are told apart by the address alone. -/
def Careful (cfg : Config) (r r' : Descent) : Prop :=
  ∀ w < cfg.numWorkers, ∀ a ∈ (r.state.workers w).freelist,
    a ∉ (r'.state.workers w).freelist → ∀ k ∈ r.state.live cfg, k.parent ≠ a

/-- The runs in which every step is careful. -/
def carefulDescents (cfg : Config) : System Descent where
  init := (descents cfg).init
  step r r' := (descents cfg).step r r' ∧ Careful cfg r r'

section Runs

variable {cfg : Config} {r r' : Descent} {s : State} {w : ℕ} {n : Node} {party : ℕ × Choice}

theorem Descent.move_inv (moved : r.move cfg party = .ok r') : party.1 < cfg.numWorkers ∧
    ∃ n, wstep cfg party.1 party.2 (r.state.node party.1) = .ok n ∧
      r' = ⟨r.state.put party.1 n, r.record party.1 n⟩ := by
  have ensured : Ensures (fun _ => True) (r.move cfg party) fun r' =>
      party.1 < cfg.numWorkers ∧ ∃ n, wstep cfg party.1 party.2 (r.state.node party.1) = .ok n ∧
        r' = ⟨r.state.put party.1 n, r.record party.1 n⟩ := by
    simp only [move, ensures_bind, ensures_await, ensures_pure]
    intro worker
    cases run : wstep cfg party.1 party.2 (r.state.node party.1) with
    | error stop => cases stop <;> trivial
    | ok n => exact ⟨worker, n, rfl, rfl⟩
  exact ensured.value moved

/-- Leaving out the history leaves a run of the runtime. -/
theorem descent_reachable (reached : (carefulDescents cfg).Reachable r) :
    (system cfg).Reachable r.state := by
  refine @System.Reachable.invariant _ (carefulDescents cfg)
    (fun r => (system cfg).Reachable r.state) ?_ ?_ r reached
  · rintro r rfl
    exact System.reachable_of_init rfl
  · rintro r r' - before ⟨⟨party, moved⟩, -⟩
    obtain ⟨worker, n, ran, rfl⟩ := Descent.move_inv moved
    exact before.tail ⟨party.1, worker, party.2, n, ran, rfl⟩

/-! ## What one worker sees -/

theorem node_live (worker : w < cfg.numWorkers) : (s.node w).live ⊆ s.live cfg := by
  rintro k (mem | (mem | mem) | mem)
  · exact .inl ⟨w, worker, by rw [kinOf_append, kinOf_append]; exact .inl (.inl mem)⟩
  · exact .inl ⟨w, worker, by rw [kinOf_append, kinOf_append]; exact .inl (.inr mem)⟩
  · exact .inl ⟨w, worker, by rw [kinOf_append, kinOf_append]; exact .inr mem⟩
  · exact .inr mem

/-- The tasks after a step are the worker's, in the channels, or with the others as before. -/
theorem put_live {known : Set (Kin ℕ ℕ)} (here : n.live ⊆ known) (there : s.live cfg ⊆ known) :
    (s.put w n).live cfg ⊆ known := by
  rintro k (⟨v, worker, mem⟩ | mem)
  · by_cases same : v = w
    · subst same
      simp only [State.put, update_self, kinOf_append] at mem
      rcases mem with (mem | mem) | mem
      · exact here (.inl mem)
      · exact here (.inr (.inl (.inl mem)))
      · exact here (.inr (.inl (.inr mem)))
    · simp only [State.put, update_of_ne same] at mem
      exact there (.inl ⟨v, worker, mem⟩)
  · exact here (.inr (.inr mem))

theorem put_freelists : (fun v => ((s.put w n).workers v).freelist) =
    update (fun v => (s.workers v).freelist) w n.self.freelist := by
  funext v
  by_cases same : v = w
  · subst same
    simp [State.put]
  · simp [State.put, same]

/-! ## A task that returned is gone -/

theorem mem_ids_place {spot : Spot} {tasks : List Task} {k : Kin ℕ ℕ} (mem : k ∈ kinOf tasks) :
    k.id ∈ ids (place spot (tagsOf tasks)) := by
  obtain ⟨t, listed, rfl⟩ := mem
  refine Multiset.mem_map.mpr ⟨(spot, t.tag), ?_, rfl⟩
  exact Multiset.mem_map_of_mem _ (Multiset.mem_coe.mpr (List.mem_map_of_mem listed))

/-- Every task that is there is in somebody's custody. -/
theorem Refines.live_custody (ok : Refines cfg s) {k : Kin ℕ ℕ} (mem : k ∈ s.live cfg) :
    k.id ∈ ids (s.custody cfg).tasks := by
  have found {tasks : Multiset (Spot × Tag)} (part : tasks ≤ (s.custody cfg).tasks)
      (known : k.id ∈ ids tasks) : k.id ∈ ids (s.custody cfg).tasks :=
    Multiset.mem_of_le (Multiset.map_le_map part) known
  rcases mem with ⟨w, worker, mem⟩ | ⟨v, c, batch, state, slot, mem⟩
  · refine found (tasks_le_custody worker) ?_
    rw [kinOf_append] at mem
    rw [Worker.tasks, ids, Multiset.map_add]
    exact Multiset.mem_add.mpr (mem.imp mem_ids_place mem_ids_place)
  · obtain ⟨owner, chan, -⟩ := ok.net.slots v c _ slot
    refine found (tasksIn_le_custody owner chan) ?_
    rw [slot]
    exact mem_ids_place mem

/-- A task that returned is nowhere after. -/
theorem Refines.returned_gone (ok : Refines cfg s) {k : Kin ℕ ℕ}
    (returned : k.id ∈ s.net.finished) : k ∉ s.live cfg := by
  intro mem
  obtain ⟨conserved, -⟩ := Custody.reachable_inv ok.custody
  have nodup := conserved.nodup
  rw [conserved.created] at nodup
  exact Multiset.disjoint_left.mp (Multiset.nodup_add.mp nodup).2.2 (ok.live_custody mem)
    (Multiset.mem_coe.mpr returned)

/-- Before `RT_EXIT` there is user code to run, and not after. -/
theorem user_refines (reached : (system cfg).Reachable s) (worker : w < cfg.numWorkers)
    (here : (s.workers w).pc = .user) : Refines cfg s := by
  refine (reachable_cases reached).resolve_right fun closed => ?_
  cases (closed.leaves w worker).way with
  | out out => simp [here] at out
  | told _ _ told => simp [here] at told
  | waits _ _ idle => simp [here, Pc.isIdle] at idle

/-! ## Addresses and the history agree -/

structure Descent.Inv (cfg : Config) (r : Descent) : Prop where
  kin : Recognises rootAddr (r.state.live cfg) (fun w => (r.state.workers w).freelist) r.spawner
  known : ∀ k ∈ r.state.live cfg, k.addr < r.state.net.nextAddr ∧ k.parent < r.state.net.nextAddr ∧
    k.id < r.state.net.nextId
  free : ∀ w, ∀ a ∈ (r.state.workers w).freelist, a < r.state.net.nextAddr
  root : rootAddr < r.state.net.nextAddr

theorem Descent.Inv.init : (Descent.init cfg).Inv cfg := by
  have nobody : (State.init cfg).live cfg = ∅ := by
    ext k
    simp only [State.live, Set.mem_ofPred_eq, Set.mem_empty_iff_false, iff_false, not_or,
      not_exists, not_and]
    refine ⟨fun w _ => ?_, ?_⟩
    · by_cases master : w = 0 <;>
        simp [State.init, Worker.init, master, Pc.held, kinOf_nil]
    · rintro ⟨v, c, batch, state, slot, -⟩
      cases slot
  refine ⟨?_, fun k mem => ?_, fun w a mem => absurd mem List.not_mem_nil, Nat.zero_lt_one⟩
  · rw [show (Descent.init cfg).state.live cfg = ∅ from nobody]
    exact .empty _
  · rw [show (Descent.init cfg).state.live cfg = ∅ from nobody] at mem
    exact absurd mem (Set.notMem_empty k)

namespace Descent.Inv

/-- What is known of a new object. -/
structure Fresh (cfg : Config) (r : Descent) (w : ℕ) (n : Node) (addr : ℕ) : Prop where
  kin : Recognises rootAddr (r.state.live cfg) (fun v => ((r.state.put w n).workers v).freelist)
    r.spawner
  taken : ∀ v, addr ∉ ((r.state.put w n).workers v).freelist
  apart : addr ≠ rootAddr
  fresh : ∀ k ∈ r.state.live cfg, k.addr ≠ addr
  known : addr < n.net.nextAddr
  more : r.state.net.nextAddr ≤ n.net.nextAddr
  /-- It was in the free list, or no task knows the address. -/
  source : addr ∈ (r.state.workers w).freelist ∨ ∀ k ∈ r.state.live cfg, k.parent ≠ addr

theorem allocates (inv : r.Inv cfg) {addr : ℕ} (alloc : Allocates (r.state.node w) n addr) :
    Fresh cfg r w n addr := by
  have lists := @put_freelists r.state w n
  rcases alloc.source with ⟨first, nextAddr⟩ | ⟨same, rfl, nextAddr⟩
  · have first : (r.state.workers w).freelist = addr :: n.self.freelist := first
    have here : addr ∈ (r.state.workers w).freelist := first ▸ List.mem_cons_self
    obtain ⟨kin, taken, apart, fresh⟩ := inv.kin.take first
    refine ⟨lists ▸ kin, fun v => ?_, apart, fresh, nextAddr ▸ inv.free w addr here, nextAddr.ge,
      .inl here⟩
    rw [show ((r.state.put w n).workers v).freelist = _ from congrFun lists v]
    exact taken v
  · have same : n.self.freelist = (r.state.workers w).freelist := same
    have unchanged : (fun v => ((r.state.put w n).workers v).freelist) =
        fun v => (r.state.workers v).freelist := by
      rw [lists, same, update_eq_self]
    have next : (r.state.node w).net.nextAddr = r.state.net.nextAddr := rfl
    refine ⟨unchanged ▸ inv.kin, fun v mem => ?_, inv.root.ne', fun k mem => (inv.known k mem).1.ne,
      by omega, by omega, .inr fun k mem => (inv.known k mem).2.1.ne⟩
    rw [show ((r.state.put w n).workers v).freelist = _ from congrFun unchanged v] at mem
    exact (inv.free v _ mem).ne rfl

/-- No unfinished task has the new object for its parent, if the step is careful. -/
theorem Fresh.childless {addr : ℕ} (fresh : Fresh cfg r w n addr) (worker : w < cfg.numWorkers)
    {spawner : ℕ → Option ℕ} (careful : Careful cfg r ⟨r.state.put w n, spawner⟩) :
    ∀ k ∈ r.state.live cfg, k.parent ≠ addr :=
  fresh.source.elim (fun here => careful w worker addr here (fresh.taken w)) id

theorem keeps (inv : r.Inv cfg) (live : (r.state.put w n).live cfg ⊆ r.state.live cfg)
    (kin : Recognises rootAddr ((r.state.put w n).live cfg)
      (fun v => ((r.state.put w n).workers v).freelist) r.spawner)
    (free : ∀ v, ∀ a ∈ ((r.state.put w n).workers v).freelist, a < n.net.nextAddr)
    (more : r.state.net.nextAddr ≤ n.net.nextAddr) (nextId : n.net.nextId = r.state.net.nextId) :
    Inv cfg ⟨r.state.put w n, r.record w n⟩ := by
  have record : r.record w n = r.spawner := if_pos nextId
  refine ⟨record ▸ kin, fun k mem => ?_, free, inv.root.trans_le more⟩
  obtain ⟨addr, parent, id⟩ := inv.known k (live mem)
  exact ⟨addr.trans_le more, parent.trans_le more, nextId ▸ id⟩

theorem Fresh.free {addr : ℕ} (fresh : Fresh cfg r w n addr) (inv : r.Inv cfg)
    (alloc : Allocates (r.state.node w) n addr) (v : ℕ) :
    ∀ a ∈ ((r.state.put w n).workers v).freelist, a < n.net.nextAddr := by
  intro a mem
  have less : a ∈ (r.state.workers v).freelist := by
    by_cases same : v = w
    · subst same
      have mem : a ∈ n.self.freelist := by simpa [State.put] using mem
      rcases alloc.source with ⟨first, -⟩ | ⟨same, -⟩
      · rw [show (r.state.workers v).freelist = _ from first]
        exact List.mem_cons_of_mem _ mem
      · exact same ▸ mem
    · simpa [State.put, same] using mem
  exact (inv.free v a less).trans_le fresh.more

theorem creates (inv : r.Inv cfg) (worker : w < cfg.numWorkers) {addr parent : ℕ}
    (alloc : Allocates (r.state.node w) n addr)
    (careful : Careful cfg r ⟨r.state.put w n, r.record w n⟩)
    (live : n.live ⊆ insert ⟨r.state.net.nextId, addr, parent⟩ (r.state.node w).live)
    (nextId : n.net.nextId = r.state.net.nextId + 1) (known : parent < r.state.net.nextAddr)
    (other : (∀ k ∈ r.state.live cfg, k.addr ≠ addr) → addr ≠ rootAddr →
      (∀ k ∈ r.state.live cfg, k.parent ≠ addr) → parent ≠ addr)
    (spawned : ∀ l ∈ r.state.live cfg, l.addr = parent →
      (r.state.workers w).origin r.spawner = some l.id)
    (orphan : parent = rootAddr → (r.state.workers w).origin r.spawner = none) :
    Inv cfg ⟨r.state.put w n, r.record w n⟩ := by
  have fresh := inv.allocates alloc
  have childless := fresh.childless worker careful
  have record : r.record w n = update r.spawner r.state.net.nextId
      ((r.state.workers w).origin r.spawner) := if_neg (by omega)
  have subset : (r.state.put w n).live cfg ⊆
      insert ⟨r.state.net.nextId, addr, parent⟩ (r.state.live cfg) :=
    put_live (live.trans (Set.insert_subset_insert (node_live worker))) (Set.subset_insert _ _)
  have kin : Recognises rootAddr (insert ⟨r.state.net.nextId, addr, parent⟩ (r.state.live cfg))
      (fun v => ((r.state.put w n).workers v).freelist) (r.record w n) := by
    rw [record]
    refine fresh.kin.insert (fun l mem => ?_) fresh.fresh fresh.apart fresh.taken childless
      (other fresh.fresh fresh.apart childless) (fun l mem eq => ?_) fun eq => ?_
    · exact update_of_ne (inv.known l mem).2.2.ne _ _
    · exact (update_self _ _ _).trans (spawned l mem eq)
    · exact (update_self _ _ _).trans (orphan eq)
  refine ⟨kin.subset subset, fun k mem => ?_, fresh.free inv alloc, inv.root.trans_le fresh.more⟩
  rcases subset mem with rfl | mem
  · exact ⟨fresh.known, known.trans_le fresh.more, nextId ▸ Nat.lt_succ_self _⟩
  · obtain ⟨addrs, parents, ids⟩ := inv.known k mem
    exact ⟨addrs.trans_le fresh.more, parents.trans_le fresh.more, nextId ▸ Nat.lt_succ_of_lt ids⟩

/-- The current task is one that is there, or the root. -/
theorem current (inv : r.Inv cfg) (worker : w < cfg.numWorkers) :
    (r.state.workers w).currentTask = none ∧ (r.state.workers w).currentAddr = rootAddr ∨
      ∃ t : Task, (r.state.workers w).currentTask = some t ∧ t.kin ∈ r.state.live cfg ∧
        (r.state.workers w).currentAddr = t.addr ∧ t.addr ≠ rootAddr := by
  cases top : (r.state.workers w).currentTask with
  | none => exact .inl ⟨rfl, by rw [Worker.currentAddr, top]; rfl⟩
  | some t =>
    have listed : t.kin ∈ r.state.live cfg := node_live worker (currentTask_live top)
    exact .inr ⟨t, rfl, listed, by rw [Worker.currentAddr, top]; rfl, inv.kin.apart _ listed⟩

theorem spawns (inv : r.Inv cfg) (worker : w < cfg.numWorkers) {addr : ℕ}
    (here : (r.state.workers w).pc = .user) (alloc : Allocates (r.state.node w) n addr)
    (careful : Careful cfg r ⟨r.state.put w n, r.record w n⟩)
    (live : n.live ⊆ insert ⟨r.state.net.nextId, addr, (r.state.workers w).currentAddr⟩
      (r.state.node w).live)
    (nextId : n.net.nextId = r.state.net.nextId + 1) :
    Inv cfg ⟨r.state.put w n, r.record w n⟩ := by
  have origin : (r.state.workers w).origin r.spawner =
      (r.state.workers w).currentTask.map Task.id := if_pos here
  rcases inv.current worker with ⟨top, parent⟩ | ⟨t, top, listed, parent, apart⟩
  · rw [top] at origin
    rw [parent] at live
    refine inv.creates worker alloc careful live nextId inv.root (fun _ apart _ => apart.symm)
      (fun l mem eq => ?_) fun _ => origin
    exact absurd eq (inv.kin.apart l mem)
  · rw [top] at origin
    rw [parent] at live
    refine inv.creates worker alloc careful live nextId (inv.known _ listed).1
      (fun fresh _ _ => fresh _ listed) (fun l mem eq => ?_) fun eq => absurd eq apart
    rw [origin, inv.kin.unique l mem t.kin listed eq]
    rfl

/-- A step keeps the agreement if it is careful. -/
theorem step (inv : r.Inv cfg) (reached : (system cfg).Reachable r.state)
    (worker : w < cfg.numWorkers) {c : Choice}
    (moved : wstep cfg w c (r.state.node w) = .ok n)
    (careful : Careful cfg r ⟨r.state.put w n, r.record w n⟩) :
    Inv cfg ⟨r.state.put w n, r.record w n⟩ := by
  have lists := @put_freelists r.state w n
  have fewer (live : n.live ⊆ (r.state.node w).live) :
      (r.state.put w n).live cfg ⊆ r.state.live cfg :=
    put_live (live.trans (node_live worker)) subset_rfl
  cases (wstep_kin c).value moved with
  | moves live freelist nextAddr nextId =>
    have unchanged : (fun v => ((r.state.put w n).workers v).freelist) =
        fun v => (r.state.workers v).freelist := by
      rw [lists, show n.self.freelist = (r.state.workers w).freelist from freelist,
        update_eq_self]
    refine inv.keeps (fewer live) (unchanged ▸ inv.kin.subset (fewer live)) (fun v a mem => ?_)
      nextAddr.ge nextId
    rw [show ((r.state.put w n).workers v).freelist = _ from congrFun unchanged v] at mem
    exact (inv.free v a mem).trans_eq nextAddr.symm
  | spawns here alloc live nextId => exact inv.spawns worker here alloc careful live nextId
  | splits here which known alloc live nextId =>
    next addr t =>
    have known : t.kin ∈ r.state.live cfg := node_live worker known
    have busy : (r.state.workers w).pc ≠ .user := here
    have origin : (r.state.workers w).origin r.spawner = r.spawner t.id := by
      rw [Worker.origin, if_neg busy, show (r.state.workers w).splits = some t from which]
      rfl
    refine inv.creates worker alloc careful live nextId (inv.known _ known).2.1
      (fun _ _ childless => childless _ known) (fun l mem eq => ?_) fun eq => ?_
    · exact origin.trans (inv.kin.spawned _ known l mem eq)
    · exact origin.trans (inv.kin.orphan _ known eq)
  | finishes here frames live freelist finished nextAddr nextId =>
    next frame rest =>
    have ok : Refines cfg (r.state.put w n) := by
      refine ((user_refines reached worker here).step worker moved).resolve_left fun exits => ?_
      exact List.cons_ne_nil _ _ (frames.symm.trans exits.root)
    have listed : frame.task.kin ∈ r.state.live cfg := by
      refine node_live worker (.inr (.inl (.inr ⟨frame.task, ?_, rfl⟩)))
      rw [frames]
      exact List.mem_cons_self
    have gone : frame.task.kin ∉ (r.state.put w n).live cfg := by
      refine ok.returned_gone ?_
      rw [show (r.state.put w n).net.finished = _ from finished]
      exact List.mem_append_right _ (List.mem_singleton_self _)
    have freelists : (fun v => ((r.state.put w n).workers v).freelist) =
        update (fun v => (r.state.workers v).freelist) w
          (frame.task.kin.addr :: (r.state.workers w).freelist) := by
      rw [lists, freelist]
      rfl
    refine inv.keeps (fewer live) (freelists ▸ inv.kin.release listed (fewer live) gone)
      (fun v a mem => ?_) nextAddr.ge nextId
    have either : a = frame.task.addr ∨ a ∈ (r.state.workers v).freelist := by
      rw [show ((r.state.put w n).workers v).freelist = _ from congrFun freelists v] at mem
      by_cases same : v = w
      · subst same
        rw [update_self] at mem
        exact List.mem_cons.mp mem
      · rw [update_of_ne same] at mem
        exact .inr mem
    rw [nextAddr]
    rcases either with rfl | mem
    · exact (inv.known _ listed).1
    · exact inv.free v a mem
  | notifies alloc live nextId =>
    have fresh := inv.allocates alloc
    exact inv.keeps (fewer live) (fresh.kin.subset (fewer live)) (fresh.free inv alloc) fresh.more
      nextId

end Descent.Inv

theorem careful_inv (reached : (carefulDescents cfg).Reachable r) : r.Inv cfg := by
  refine System.Reachable.invariant (S := carefulDescents cfg) ?_ ?_ reached
  · rintro r rfl
    exact .init
  · rintro r r' before inv ⟨⟨party, moved⟩, careful⟩
    obtain ⟨worker, n, ran, rfl⟩ := Descent.move_inv moved
    exact inv.step (descent_reachable before) worker ran careful

/-- In a run that uses no object again while a child of its former task is around, a task
whose parent has the address of the current task was spawned by the current task; so
`deque_pop` finds only those while the current task waits for a future. -/
theorem only_own_children_popped (reached : (carefulDescents cfg).Reachable r)
    (worker : w < cfg.numWorkers) :
    (∀ t ∈ (r.state.workers w).deque, t.parent = (r.state.workers w).currentAddr →
      r.spawner t.id = (r.state.workers w).currentTask.map Task.id) ∧
    ∀ f t, (dequePop (.force f) (r.state.workers w)).1 = some t →
      r.spawner t.id = (r.state.workers w).currentTask.map Task.id := by
  have inv := careful_inv reached
  have own : ∀ t ∈ (r.state.workers w).deque, t.parent = (r.state.workers w).currentAddr →
      r.spawner t.id = (r.state.workers w).currentTask.map Task.id := by
    intro t mem parent
    have listed : t.kin ∈ r.state.live cfg := node_live worker (.inr (.inl (.inl ⟨t, mem, rfl⟩)))
    rcases inv.current worker with ⟨top, root⟩ | ⟨u, top, there, addr, -⟩
    · rw [top]
      exact inv.kin.orphan _ listed (parent.trans root)
    · rw [top]
      exact inv.kin.spawned _ listed _ there (addr.symm.trans parent.symm)
  refine ⟨own, fun f t popped => ?_⟩
  unfold dequePop at popped
  split at popped
  · cases popped
  · next first rest deque =>
    simp only at popped
    split at popped
    · next parent =>
      obtain rfl := Option.some.inj popped
      exact own _ (deque ▸ List.mem_cons_self) parent
    · cases popped

/-! ## Schedules -/

/-- No free list gets shorter. -/
def NoneReused (cfg : Config) (r r' : Descent) : Prop :=
  ∀ w < cfg.numWorkers, ∀ a ∈ (r.state.workers w).freelist, a ∈ (r'.state.workers w).freelist

instance (cfg : Config) (r r' : Descent) : Decidable (NoneReused cfg r r') :=
  inferInstanceAs (Decidable (∀ w < cfg.numWorkers, _))

/-- A move that uses no object again. -/
def Descent.moveFresh (cfg : Config) (party : ℕ × Choice) (r : Descent) : Checked Descent := do
  let r' ← r.move cfg party
  await (NoneReused cfg r r')
  return r'

theorem Descent.moveFresh_careful
    (reached : (System.ofMoves (.init cfg) (moveFresh cfg)).Reachable r) :
    (carefulDescents cfg).Reachable r := by
  refine System.Reachable.invariant ?_ ?_ reached
  · rintro r rfl
    exact System.reachable_of_init rfl
  · rintro r r' - before ⟨party, moved⟩
    have ensured : Ensures (fun _ => True) (r.moveFresh cfg party) fun r' =>
        r.move cfg party = .ok r' ∧ NoneReused cfg r r' := by
      rw [moveFresh, ensures_bind]
      cases run : r.move cfg party with
      | error stop => cases stop <;> trivial
      | ok r'' =>
        simp only [ensures_ok, ensures_bind, ensures_await, ensures_pure]
        exact fun none => ⟨trivial, none⟩
    obtain ⟨moved, none⟩ := ensured.value moved
    exact before.tail ⟨⟨party, moved⟩, fun w worker a free used =>
      absurd (none w worker a free) used⟩

end Runs

/-- The master spawns a task and waits at the barrier, where it runs the task. -/
def childSchedule : List (ℕ × Choice) :=
  (0, .plain (.spawn none false)) :: runsOn 0 3 ++ (0, .plain .barrier) :: runsOn 0 4

/-- The task has spawned a child. -/
def childSpawned : Descent :=
  System.follow (Descent.moveFresh (.makefile 1 one_pos))
    (childSchedule ++ (0, .plain (.spawn none false)) :: runsOn 0 3) (.init (.makefile 1 one_pos))

theorem only_own_children_popped_child :
    (childSpawned.state.workers 0).deque.map Task.id = [1] ∧
      (childSpawned.state.workers 0).currentTask.map Task.id = some 0 ∧
      (∀ t ∈ (childSpawned.state.workers 0).deque,
        t.parent = (childSpawned.state.workers 0).currentAddr →
        childSpawned.spawner t.id = (childSpawned.state.workers 0).currentTask.map Task.id) ∧
      ∀ f t, (dequePop (.force f) (childSpawned.state.workers 0)).1 = some t →
        childSpawned.spawner t.id = (childSpawned.state.workers 0).currentTask.map Task.id :=
  ⟨by decide +kernel, by decide +kernel, only_own_children_popped
    (Descent.moveFresh_careful (System.follow_reachable _)) one_pos⟩

/-- The first child outlives its parent: the second one is run before it, and spawns a
task that gets the object of the parent. -/
def recycledSchedule : List (ℕ × Choice) :=
  childSchedule ++ (0, .plain (.spawn none false)) :: runsOn 0 3 ++
    (0, .plain (.spawn none false)) :: runsOn 0 3 ++
    (0, .plain (.finish [])) :: runsOn 0 4 ++
    (0, .plain (.spawn none false)) :: runsOn 0 3 ++
    (0, .plain (.finish [])) :: runsOn 0 4

/-- That task would take the first child for its own. -/
theorem recycled_parent_popped : ∃ r, (descents (.makefile 1 one_pos)).Reachable r ∧
    (r.state.workers 0).currentTask.map Task.id = some 3 ∧
    (dequePop (.force .foreign) (r.state.workers 0)).1.map Task.id = some 1 ∧
    r.spawner 1 = some 0 :=
  ⟨_, System.follow_reachable recycledSchedule, by decide +kernel, by decide +kernel,
    by decide +kernel⟩

end Tasking.Runtime
