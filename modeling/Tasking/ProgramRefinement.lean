import Tasking.Programs

/-!
The runtime refines the fork-join meaning of its programs.

A step of a worker changes the pieces of work in one of the ways of `WorkStep`.  For each of
them there is a step of the pool of threads, or none.  The invariant `Programmed.Ok` supplies
what the two levels have to agree on: which task is which thread, how far a loop is, and
where suspended code is.
-/
namespace Tasking.Runtime
open Fallible Family Loops ForkJoin Function

section Refinement

variable {ε : Type} {cfg : Config} {d : Programmed ε} {w : ℕ} {n : Node} {o : Oracle}
  {code code' : Code Bounds ε Value} {job job' : ℕ → Job ε} {root : Option (Code Bounds ε Value)}
  {x : Worker} {frame : Frame}

/-! ## Stacks -/

theorem Suspended.free : Suspended root none := trivial

/-- A stack sees the jobs of its own tasks. -/
theorem Chain.congr {site : Option Site} {below : List (ℕ × Option Site)}
    (chain : Chain job root site below) (same : ∀ e ∈ below, job' e.1 = job e.1) :
    Chain job' root site below := by
  induction below generalizing site with
  | nil => exact chain
  | cons link below ih =>
    obtain ⟨suspended, chain⟩ := chain
    refine ⟨?_, ih chain fun e member => same e (List.mem_cons_of_mem link member)⟩
    rwa [same link List.mem_cons_self]

/-- A call that returns leaves the rest of the stack. -/
theorem Chain.returns {site : Option Site} {below : List (ℕ × Option Site)}
    (chain : Chain job root site below) : Chain job root none below := by
  cases below with
  | nil => exact Suspended.free
  | cons link below => exact ⟨Suspended.free, chain.2⟩

theorem frame_mem_pieces (member : frame ∈ x.frames) :
    frame.task.piece ∈ x.pieces := by
  refine Multiset.mem_add.mpr (.inr ?_)
  exact List.mem_map_of_mem (List.mem_map_of_mem member)

theorem pieces_current {s : State} {tail : List Frame} (worker : w < cfg.numWorkers)
    (frames : (s.workers w).frames = frame :: tail) : ∃ rest,
      s.pieces cfg = frame.task.piece ::ₘ rest ∧ (∀ other ∈ tail, other.task.piece ∈ rest) ∧
      ∀ v < cfg.numWorkers, v ≠ w → ∀ other ∈ (s.workers v).frames, other.task.piece ∈ rest := by
  refine ⟨piecesOf (s.workers w).pc.held.toList + piecesOf (s.workers w).deque +
    piecesOf (tail.map Frame.task) + s.net.pieces cfg +
    others cfg.numWorkers (fun v => (s.workers v).pieces) w, ?_, fun other member => ?_,
    fun v inside differs other member => ?_⟩
  · rw [pieces_node worker, Node.pieces, Worker.pieces]
    simp only [State.node, frames, List.map_cons, piecesOf_cons, Multiset.add_cons,
      Multiset.cons_add]
  · have here : other.task.piece ∈ piecesOf (tail.map Frame.task) :=
      List.mem_map_of_mem (List.mem_map_of_mem member)
    simp only [Multiset.mem_add]
    exact .inl (.inl (.inr here))
  · refine Multiset.mem_add.mpr (.inr ?_)
    refine Multiset.mem_sum.mpr ⟨v, Finset.mem_erase.mpr ⟨differs, Finset.mem_range.mpr inside⟩, ?_⟩
    exact frame_mem_pieces member

/-- No other piece is the current task. -/
theorem Refines.current_only {s : State} (ok : Refines cfg s) {p : Piece} {rest : Multiset Piece}
    (pieces : s.pieces cfg = p ::ₘ rest) {other : Piece} (member : other ∈ rest) :
    other.id ≠ p.id := by
  have nodup := ok.pieces_nodup
  rw [pieces, Multiset.map_cons, Multiset.nodup_cons] at nodup
  intro same
  exact nodup.1 (same ▸ Multiset.mem_map_of_mem _ member)

/-! ## Changes of the jobs -/

/-- A step of worker `w` changes the code of its current task, and that of a new task. -/
structure Touches (d : Programmed ε) (w : ℕ) (d' : Programmed ε) : Prop where
  job : ∀ id < d.state.net.nextId,
    (∀ t, (d.state.workers w).currentTask = some t → id ≠ t.id) → d'.job id = d.job id
  root : d'.root = d.root ∨ w = 0 ∧ (d.state.workers w).frames = []

theorem currentTask_eq_some {tail : List Frame} (frames : x.frames = frame :: tail) :
    x.currentTask = some frame.task := by
  simp only [Worker.currentTask, frames, List.head?_cons, Option.map_some]

theorem currentTask_eq_none (frames : x.frames = []) : x.currentTask = none := by
  simp only [Worker.currentTask, frames, List.head?_nil, Option.map_none]

theorem exists_frames {t : Task} (current : x.currentTask = some t) :
    ∃ ret tail, x.frames = ⟨t, ret⟩ :: tail := by
  cases frames : x.frames with
  | nil => simp [Worker.currentTask, frames] at current
  | cons frame tail =>
    obtain rfl : frame.task = t := by simpa [Worker.currentTask, frames] using current
    exact ⟨frame.ret, tail, rfl⟩

namespace Programmed

variable {d' : Programmed ε}

theorem touches_refl : Touches d w d := ⟨fun _ _ _ => rfl, .inl rfl⟩

theorem touches_current {t : Task} (current : (d.state.workers w).currentTask = some t)
    (j : Job ε) : Touches d w { d with job := update d.job t.id j } :=
  ⟨fun _ _ other => update_of_ne (other t current) _ _, .inl rfl⟩

theorem touches_resume (master : (d.state.workers w).frames = [] → w = 0)
    (code : Code Bounds ε Value) : Touches d w (d.resume w code) := by
  unfold resume
  split
  · next t current => exact touches_current current _
  · next none =>
    have frames : (d.state.workers w).frames = [] := by
      simpa [Worker.currentTask] using none
    exact ⟨fun _ _ _ => rfl, .inr ⟨master frames, frames⟩⟩

@[simp] theorem resume_state : (d.resume w code).state = d.state := by
  unfold resume
  split <;> rfl

@[simp] theorem resume_source : (d.resume w code).source = d.source := by
  unfold resume
  split <;> rfl

@[simp] theorem resume_log : (d.resume w code).log = d.log := by
  unfold resume
  split <;> rfl

theorem touches_create (touches : Touches d w d') (state : d'.state = d.state) (j : Job ε) :
    Touches d w (d'.create j) := by
  refine ⟨fun id old other => ?_, touches.root⟩
  rw [create, state]
  exact (update_of_ne old.ne _ _).trans (touches.job id old other)

end Programmed

section Touched

variable {d' : Programmed ε} {s : State}

theorem mem_pieces {v : ℕ} (inside : v < cfg.numWorkers) {frame : Frame}
    (member : frame ∈ (s.workers v).frames) : frame.task.piece ∈ s.pieces cfg := by
  rw [pieces_node inside]
  exact Multiset.mem_add.mpr (.inl (Multiset.mem_add.mpr (.inl (frame_mem_pieces member))))

theorem current_mem_pieces {t : Task} (worker : w < cfg.numWorkers)
    (current : (s.workers w).currentTask = some t) : t.piece ∈ s.pieces cfg := by
  obtain ⟨ret, tail, frames⟩ := exists_frames current
  have member : (⟨t, ret⟩ : Frame) ∈ (s.workers w).frames := by simp [frames]
  exact mem_pieces worker member

/-- The other workers do not notice. -/
theorem Touches.others (touches : Touches d w d') (ok : d.Ok cfg) (worker : w < cfg.numWorkers)
    {v : ℕ} (inside : v < cfg.numWorkers) (differs : v ≠ w) :
    Chain d'.job (d'.bottom v) (d.state.workers v).stack.awaits
      (d.state.workers v).stack.below := by
  have bottom : d'.bottom v = d.bottom v := by
    unfold Programmed.bottom
    split
    · next master =>
      rcases touches.root with same | ⟨here, -⟩
      · rw [same]
      · exact absurd (master.trans here.symm) differs
    · rfl
  rw [bottom]
  refine (ok.chain v inside).congr fun e member => ?_
  obtain ⟨frame, listed, rfl⟩ := List.mem_map.mp member
  refine touches.job _ (ok.refines.pieces_lt (mem_pieces inside listed)) fun t current => ?_
  obtain ⟨ret, tail, frames⟩ := exists_frames current
  obtain ⟨rest, pieces, -, elsewhere⟩ := pieces_current worker frames
  exact ok.refines.current_only pieces (elsewhere v inside differs frame listed)

/-- Nor does the code below the current task. -/
theorem Touches.tail (touches : Touches d w d') (ok : d.Ok cfg) (worker : w < cfg.numWorkers)
    {frame : Frame} {tail : List Frame} (frames : (d.state.workers w).frames = frame :: tail)
    {site : Option Site} (chain : Chain d.job (d.bottom w) site (tail.map Frame.link)) :
    Chain d'.job (d'.bottom w) site (tail.map Frame.link) := by
  have bottom : d'.bottom w = d.bottom w := by
    unfold Programmed.bottom
    rcases touches.root with same | ⟨-, empty⟩
    · rw [same]
    · exact absurd (frames.symm.trans empty) (List.cons_ne_nil _ _)
  rw [bottom]
  obtain ⟨rest, pieces, below, -⟩ := pieces_current worker frames
  refine chain.congr fun e member => ?_
  obtain ⟨other, inTail, rfl⟩ := List.mem_map.mp member
  have listed : other ∈ (d.state.workers w).frames := by
    rw [frames]
    exact List.mem_cons_of_mem frame inTail
  refine touches.job _ (ok.refines.pieces_lt (mem_pieces worker listed)) fun t current => ?_
  obtain rfl : frame.task = t := Option.some.inj ((currentTask_eq_some frames).symm.trans current)
  exact ok.refines.current_only pieces (below other inTail)

/-- Code that is not suspended can be replaced. -/
theorem Touches.awake (touches : Touches d w d') (ok : d.Ok cfg) (worker : w < cfg.numWorkers) :
    Chain d'.job (d'.bottom w) none (d.state.workers w).stack.below := by
  have chain := (ok.chain w worker).returns
  rw [Worker.stack] at chain ⊢
  cases frames : (d.state.workers w).frames with
  | nil => exact Suspended.free
  | cons frame tail =>
    rw [frames] at chain
    exact ⟨Suspended.free, touches.tail ok worker frames chain.2⟩

/-- Code that is suspended waits for a future of its own, or in a barrier. -/
theorem Chain.not_foreign {below : List (ℕ × Option Site)} :
    ¬ Chain job root (some (.force .foreign)) below := by
  cases below with
  | nil => exact id
  | cons link below => exact And.left

theorem Programmed.Ok.not_foreign (ok : d.Ok cfg) (worker : w < cfg.numWorkers)
    {point : ReadyPoint} : (d.state.workers w).pc ≠ .forceReady .foreign point := by
  intro here
  have chain := ok.chain w worker
  rw [Worker.stack, here] at chain
  exact chain.not_foreign

/-- What is left to show after a step of the runtime. -/
theorem Programmed.Ok.put (ok : d.Ok cfg) (worker : w < cfg.numWorkers) {c : Choice}
    (moved : wstep cfg w c (d.state.node w) = .ok n) (next : Refines cfg (d.state.put w n))
    (state : d'.state = d.state.put w n) (touches : Touches d w d')
    (fits : ∀ p ∈ (d.state.put w n).pieces cfg, (d'.job p.id).Fits p)
    (chain : Chain d'.job (d'.bottom w) n.self.stack.awaits n.self.stack.below) : d'.Ok cfg := by
  refine ⟨state ▸ next, state ▸ ok.settles.step ok.refines worker moved next ?_, ?_, ?_⟩
  · exact fun point _ here => absurd here (ok.not_foreign worker)
  · rw [state]
    exact fits
  · intro v inside
    rw [state]
    by_cases same : v = w
    · subst same
      simpa [State.put] using chain
    · simpa [State.put, same] using touches.others ok worker inside same

end Touched

/-! ## Iterations -/

theorem mem_iterations {lo hi i : ℤ} : i ∈ iterations lo hi ↔ lo ≤ i ∧ i < hi := by
  simp only [iterations, List.mem_map, List.mem_range]
  constructor
  · rintro ⟨k, below, rfl⟩
    omega
  · rintro ⟨above, below⟩
    exact ⟨(i - lo).toNat, by omega, by omega⟩

theorem nodup_iterations (lo hi : ℤ) : (iterations lo hi).Nodup :=
  List.nodup_range.map fun k l same => by simpa using same

theorem iterations_cons {i stop : ℤ} (below : i < stop) :
    (iterations i stop : Multiset ℤ) = i ::ₘ (iterations (i + 1) stop : Multiset ℤ) := by
  have fresh : i ∉ iterations (i + 1) stop := by simp [mem_iterations]
  refine (Multiset.Nodup.ext (Multiset.coe_nodup.mpr (nodup_iterations i stop))
    (Multiset.nodup_cons.mpr ⟨fresh, Multiset.coe_nodup.mpr (nodup_iterations _ _)⟩)).mpr
      fun k => ?_
  simp only [Multiset.mem_cons, Multiset.mem_coe, mem_iterations]
  omega

theorem iterations_add {lo mid hi : ℤ} (above : lo ≤ mid) (below : mid ≤ hi) :
    (iterations lo hi : Multiset ℤ) = iterations lo mid + iterations mid hi := by
  have apart : (iterations lo mid ++ iterations mid hi).Nodup := by
    refine (nodup_iterations lo mid).append (nodup_iterations mid hi) fun i first second => ?_
    rw [mem_iterations] at first second
    omega
  refine (Multiset.Nodup.ext (Multiset.coe_nodup.mpr (nodup_iterations lo hi))
    (Multiset.coe_nodup.mpr apart)).mpr fun k => ?_
  simp only [Multiset.mem_coe, List.mem_append, mem_iterations]
  omega

/-! ## Threads -/

theorem Piece.left_some (p : Piece) (code code' : Code Bounds ε Value) :
    p.left (some code') = p.left (some code) := by
  unfold Piece.left
  cases p.iter <;> rfl

theorem Job.thread_resume {j : Job ε} (here : j.code = some code) (p : Piece)
    (others : Multiset (Thread Bounds ε Value)) :
    Continues code code' (j.thread p ::ₘ others) ((j.resume code').thread p ::ₘ others) := by
  cases j with
  | plain c =>
    obtain rfl : c = code := Option.some.inj here
    exact .plain
  | loop body current =>
    obtain rfl : current = some code := here
    rw [thread, resume, thread, p.left_some code code']
    exact .loop

theorem Job.Fits.resume {j : Job ε} {p : Piece} (fits : j.Fits p) (here : j.code = some code) :
    (j.resume code').Fits p := by
  cases j with
  | plain c => exact fits
  | loop body current =>
    obtain rfl : current = some code := here
    obtain ⟨splittable, future, loop⟩ := fits
    refine ⟨splittable, future, loop.start_fits, loop.stop_fits, loop.width_fits,
      fun unentered => ?_, loop.inside⟩
    exact absurd (loop.before unentered).1 (by simp)

theorem threadsOf_cons (p : Piece) (pieces : Multiset Piece) :
    threadsOf job (p ::ₘ pieces) = (job p.id).thread p ::ₘ threadsOf job pieces :=
  Multiset.map_cons _ _ _

theorem threadsOf_congr {pieces : Multiset Piece} (same : ∀ p ∈ pieces, job' p.id = job p.id) :
    threadsOf job' pieces = threadsOf job pieces :=
  Multiset.map_congr rfl fun p member => by rw [same p member]

theorem threadsOf_update {p : Piece} {rest : Multiset Piece} (id : ℕ) (here : p.id = id)
    (other : ∀ q ∈ rest, q.id ≠ id) (j : Job ε) :
    threadsOf (update job id j) (p ::ₘ rest) = j.thread p ::ₘ threadsOf job rest := by
  rw [threadsOf_cons, here, update_self,
    threadsOf_congr fun q member => update_of_ne (other q member) _ _]

theorem Programmed.Ok.code_current (ok : d.Ok cfg) (worker : w < cfg.numWorkers)
    (here : d.code w = some code) : (d.state.workers w).frames = [] ∧ d.root = code ∨
    ∃ frame tail rest, (d.state.workers w).frames = frame :: tail ∧
      (d.job frame.task.id).code = some code ∧ d.state.pieces cfg = frame.task.piece ::ₘ rest ∧
      ∀ p ∈ rest, p.id ≠ frame.task.id := by
  unfold Programmed.code at here
  cases frames : (d.state.workers w).frames with
  | nil =>
    rw [currentTask_eq_none frames] at here
    exact .inl ⟨rfl, Option.some.inj here⟩
  | cons frame tail =>
    rw [currentTask_eq_some frames] at here
    obtain ⟨rest, pieces, -⟩ := pieces_current worker frames
    exact .inr ⟨frame, tail, rest, rfl, here, pieces, fun p => ok.refines.current_only pieces⟩

theorem Programmed.Ok.fits_resume (ok : d.Ok cfg) (worker : w < cfg.numWorkers)
    (here : d.code w = some code) :
    ∀ p ∈ d.state.pieces cfg, ((d.resume w code').job p.id).Fits p := by
  intro p member
  rcases ok.code_current worker here with
    ⟨frames, -⟩ | ⟨frame, tail, rest, frames, job, pieces, other⟩
  · rw [resume, currentTask_eq_none frames]
    exact ok.fits p member
  · rw [resume, currentTask_eq_some frames]
    have fits := ok.fits p member
    rw [pieces] at member
    rcases Multiset.mem_cons.mp member with rfl | member
    · simpa [Task.piece] using fits.resume job
    · simpa [other p member] using fits

theorem Programmed.Ok.continues (ok : d.Ok cfg) (worker : w < cfg.numWorkers)
    (here : d.code w = some code) (task : (d.state.workers w).frames ≠ [])
    (code' : Code Bounds ε Value) :
    Continues code code' (threadsOf d.job (d.state.pieces cfg))
        (threadsOf (d.resume w code').job (d.state.pieces cfg)) ∧
      (d.resume w code').root = d.root := by
  rcases ok.code_current worker here with
    ⟨frames, -⟩ | ⟨frame, tail, rest, frames, job, pieces, other⟩
  · exact absurd frames task
  · have jobs : (d.resume w code').job =
        update d.job frame.task.id ((d.job frame.task.id).resume code') := by
      rw [resume, currentTask_eq_some frames]
    have root : (d.resume w code').root = d.root := by rw [resume, currentTask_eq_some frames]
    rw [jobs, root, pieces, threadsOf_update frame.task.id rfl other, threadsOf_cons]
    exact ⟨Job.thread_resume job _ _, rfl⟩

theorem Programmed.Ok.resumes (ok : d.Ok cfg) (worker : w < cfg.numWorkers)
    (here : d.code w = some code) (code' : Code Bounds ε Value) :
    Resumes code code' (d.pool cfg) ((d.resume w code').pool cfg) := by
  rcases ok.code_current worker here with ⟨frames, root⟩ | ⟨frame, tail, rest, frames, -⟩
  · have resumed : d.resume w code' = { d with root := code' } := by
      rw [resume, currentTask_eq_none frames]
    rw [resumed]
    exact .root root
  · obtain ⟨goes, root⟩ := ok.continues worker here (by simp [frames]) code'
    have pool : (d.resume w code').pool cfg =
        { d.pool cfg with threads := threadsOf (d.resume w code').job (d.state.pieces cfg) } := by
      simp only [Programmed.pool, root, resume_state, resume_source, resume_log]
    rw [pool]
    exact .thread goes

/-! ## User code -/

/-- The step is one of the pool's, or none, and the levels agree after it. -/
def Follows (cfg : Config) (d d' : Programmed ε) : Prop :=
  d'.Ok cfg ∧ Relation.ReflGen ForkJoin.Step (d.pool cfg) (d'.pool cfg)

section User

variable {d' : Programmed ε} {s : State} {act : UserAct} {rest : Program Bounds ε Value}
  {fs : List ℕ}

theorem stack_user {x : Worker} (here : x.pc = .user) : x.stack.awaits = none := by
  rw [Worker.stack, here]
  rfl

theorem call_eq (called : d.call cfg w o act = .ok s) :
    ∃ n, wstep cfg w ⟨act, o, false⟩ (d.state.node w) = .ok n ∧ s = d.state.put w n := by
  unfold Programmed.call at called
  cases moved : wstep cfg w ⟨act, o, false⟩ (d.state.node w) with
  | error e => simp [moved, bind, Except.bind] at called
  | ok n =>
    simp only [moved, bind, Except.bind, pure, Except.pure, Except.ok.injEq] at called
    exact ⟨n, rfl, called.symm⟩

/-- User code runs in a task, or on the master. -/
theorem Programmed.Ok.master (ok : d.Ok cfg) (worker : w < cfg.numWorkers)
    (here : (d.state.workers w).pc = .user) (empty : (d.state.workers w).frames = []) : w = 0 := by
  have site := (ok.refines.loc w worker).site
  rw [show (d.state.workers w).loc.pc = .user from here] at site
  exact site.resolve_right fun some => some (by simp [Worker.loc, empty])

/-- User code that does not call the runtime. -/
theorem Programmed.Ok.stay (ok : d.Ok cfg) (worker : w < cfg.numWorkers)
    (here : (d.state.workers w).pc = .user) (state : d'.state = d.state) (touches : Touches d w d')
    (fits : ∀ p ∈ d.state.pieces cfg, (d'.job p.id).Fits p) : d'.Ok cfg := by
  refine ⟨state ▸ ok.refines, state ▸ ok.settles, by rwa [state], fun v inside => ?_⟩
  rw [state]
  by_cases same : v = w
  · subst same
    rw [stack_user here]
    exact touches.awake ok worker
  · exact touches.others ok worker inside same

/-- Pieces that were moved at most are the same threads. -/
theorem pool_put (worker : w < cfg.numWorkers) (state : d'.state = d.state)
    (pieces : n.pieces cfg = (d.state.node w).pieces cfg)
    (passed : n.ledger.passed = (d.state.node w).ledger.passed)
    (next : n.ledger.nextFuture = (d.state.node w).ledger.nextFuture) :
    ({ d' with state := d.state.put w n } : Programmed ε).pool cfg = d'.pool cfg := by
  have all : (d.state.put w n).pieces cfg = d.state.pieces cfg := by
    rw [pieces_put worker, pieces, ← pieces_node worker]
  change (fun f => (n.net.futures f).passed) = fun f => (d.state.net.futures f).passed at passed
  change n.net.nextFuture = d.state.net.nextFuture at next
  simp only [Programmed.pool, all, state]
  rw [show (d.state.put w n).net = n.net from rfl, passed, next]

/-- The code at the top of a stack asks for something. -/
theorem Programmed.Ok.suspends (ok : d.Ok cfg) (worker : w < cfg.numWorkers)
    (here : (d.state.workers w).pc = .user) (runs : d.code w = some code) {site : Option Site}
    (suspended : Suspended (some code) site) :
    Chain d.job (d.bottom w) site (d.state.workers w).stack.below := by
  have chain := ok.chain w worker
  rw [Worker.stack] at chain ⊢
  rcases ok.code_current worker runs with ⟨frames, rfl⟩ | ⟨frame, tail, rest, frames, job, -⟩
  · rw [frames, Programmed.bottom, if_pos (ok.master worker here frames)]
    exact suspended
  · rw [frames] at chain ⊢
    refine ⟨?_, chain.2⟩
    rwa [job]

theorem Programmed.Ok.emit {e : ε} (ok : d.Ok cfg) (worker : w < cfg.numWorkers)
    (here : (d.state.workers w).pc = .user) (runs : d.code w = some ⟨.emit e rest, fs⟩) :
    Follows cfg d { d.resume w ⟨rest, fs⟩ with log := d.log ++ [e] } := by
  have touches := Programmed.touches_resume (ok.master worker here) ⟨rest, fs⟩
  refine ⟨ok.stay worker here Programmed.resume_state ⟨touches.job, touches.root⟩
    (ok.fits_resume worker runs), .single ?_⟩
  exact .emit (ok.resumes worker runs _)

theorem Programmed.Ok.spawn {loop : Option (ℤ × ℤ)} {future : Bool} (ok : d.Ok cfg)
    (worker : w < cfg.numWorkers) (here : (d.state.workers w).pc = .user)
    (runs : d.code w = some code) (code' : Code Bounds ε Value) (j : Job ε)
    (source : ℕ → Program Bounds ε Value)
    (moved : wstep cfg w ⟨.spawn loop future, o, false⟩ (d.state.node w) = .ok n)
    (fits : j.Fits ((d.state.node w).ledger.newPiece loop future)) :
    Programmed.Ok cfg { (d.resume w code').create j with
        state := d.state.put w n, source := source } ∧
      ({ (d.resume w code').create j with
        state := d.state.put w n, source := source } : Programmed ε).pool cfg =
      { (d.resume w code').pool cfg with
        threads := j.thread ((d.state.node w).ledger.newPiece loop future) ::ₘ
          ((d.resume w code').pool cfg).threads
        source := source
        resolved := fun f => (n.net.futures f).passed
        next := n.net.nextFuture } ∧
      n.ledger = (d.state.node w).ledger.create future := by
  obtain ⟨step, next⟩ := ok.refines.works worker moved fun _ => by simp
  obtain ⟨pieces, stack, ledger⟩ := step.spawned here rfl
  have touches : Touches d w ((d.resume w code').create j) :=
    Programmed.touches_create (Programmed.touches_resume (ok.master worker here) code')
      Programmed.resume_state j
  have all : (d.state.put w n).pieces cfg =
      (d.state.node w).ledger.newPiece loop future ::ₘ d.state.pieces cfg := by
    rw [pieces_put worker, pieces, Multiset.cons_add, ← pieces_node worker]
  have created : ((d.resume w code').create j).job =
      update (d.resume w code').job d.state.net.nextId j := by
    rw [Programmed.create, Programmed.resume_state]
  refine ⟨ok.put worker moved next rfl ⟨touches.job, touches.root⟩ ?_ ?_, ?_, ledger⟩
  · rw [all]
    intro p member
    dsimp only
    rw [created]
    rcases Multiset.mem_cons.mp member with rfl | member
    · have id : ((d.state.node w).ledger.newPiece loop future).id = d.state.net.nextId := rfl
      rwa [id, update_self]
    · rw [update_of_ne (ok.refines.pieces_lt member).ne]
      exact ok.fits_resume worker runs p member
  · rw [stack]
    have awake := touches.awake ok worker
    rwa [← stack_user here] at awake
  · simp only [Programmed.pool, Programmed.resume_state, all, created]
    rw [threadsOf_update d.state.net.nextId rfl fun p member => (ok.refines.pieces_lt member).ne]
    rfl

theorem Programmed.Ok.starts {loop : Option (ℤ × ℤ)} (ok : d.Ok cfg)
    (worker : w < cfg.numWorkers) (here : (d.state.workers w).pc = .user)
    (runs : d.code w = some code) (code' : Code Bounds ε Value) (j : Job ε)
    (moved : wstep cfg w ⟨.spawn loop false, o, false⟩ (d.state.node w) = .ok n)
    (fits : j.Fits ((d.state.node w).ledger.newPiece loop false)) :
    Programmed.Ok cfg { (d.resume w code').create j with state := d.state.put w n } ∧
      ({ (d.resume w code').create j with state := d.state.put w n } : Programmed ε).pool cfg =
        ((d.resume w code').pool cfg).start
          (j.thread ((d.state.node w).ledger.newPiece loop false)) := by
  obtain ⟨fine, pool, ledger⟩ :=
    ok.spawn worker here runs code' j (d.resume w code').source moved fits
  have passed : (fun f => (n.net.futures f).passed) = fun f => (d.state.net.futures f).passed :=
    congrArg Ledger.passed ledger
  have next : n.net.nextFuture = d.state.net.nextFuture := congrArg Ledger.nextFuture ledger
  refine ⟨fine, pool.trans ?_⟩
  rw [passed, next]
  simp only [Pool.start, Programmed.pool, Programmed.resume_state]

theorem Programmed.Ok.async {child rest : Program Bounds ε Value} (ok : d.Ok cfg)
    (worker : w < cfg.numWorkers) (here : (d.state.workers w).pc = .user)
    (runs : d.code w = some ⟨.async child rest, fs⟩)
    (moved : wstep cfg w ⟨.spawn none false, o, false⟩ (d.state.node w) = .ok n) :
    Follows cfg d { (d.resume w ⟨rest, fs⟩).create (.plain ⟨child, []⟩) with
      state := d.state.put w n } := by
  obtain ⟨fine, pool⟩ := ok.starts worker here runs ⟨rest, fs⟩ (.plain ⟨child, []⟩) moved rfl
  refine ⟨fine, .single ?_⟩
  rw [pool]
  exact .async (ok.resumes worker runs _)

theorem Programmed.Ok.each {b : Bounds} {body : ℤ → Program Bounds ε Value} (ok : d.Ok cfg)
    (worker : w < cfg.numWorkers) (here : (d.state.workers w).pc = .user)
    (runs : d.code w = some ⟨.each b body rest, fs⟩)
    (moved : wstep cfg w ⟨.spawn (some (b.lo, b.hi)) false, o, false⟩ (d.state.node w) = .ok n) :
    Follows cfg d { (d.resume w ⟨rest, fs⟩).create (.loop body none) with
      state := d.state.put w n } := by
  have loop : LoopOk (ε := ε) ((d.state.node w).ledger.newPiece (some (b.lo, b.hi)) false) none :=
    ⟨b.low, b.high, b.width, fun _ => ⟨rfl, rfl, b.upward⟩, fun i entered => by cases entered⟩
  obtain ⟨fine, pool⟩ := ok.starts worker here runs ⟨rest, fs⟩ (.loop body none) moved
    ⟨rfl, rfl, loop⟩
  refine ⟨fine, .single ?_⟩
  rw [pool]
  exact .each (ok.resumes worker runs ⟨rest, fs⟩)

theorem Programmed.Ok.future {child : Program Bounds ε Value} {rest : ℕ → Program Bounds ε Value}
    (ok : d.Ok cfg) (worker : w < cfg.numWorkers) (here : (d.state.workers w).pc = .user)
    (runs : d.code w = some ⟨.future child rest, fs⟩)
    (moved : wstep cfg w ⟨.spawn none true, o, false⟩ (d.state.node w) = .ok n) :
    Follows cfg d { (d.resume w ⟨rest fs.length, fs ++ [d.state.net.nextFuture]⟩).create
        (.plain ⟨child, []⟩) with
      state := d.state.put w n
      source := update d.source d.state.net.nextFuture child } := by
  obtain ⟨fine, pool, ledger⟩ := ok.spawn worker here runs
    ⟨rest fs.length, fs ++ [d.state.net.nextFuture]⟩ (.plain ⟨child, []⟩)
    (update d.source d.state.net.nextFuture child) moved rfl
  have passed : (fun f => (n.net.futures f).passed) =
      update (fun f => (d.state.net.futures f).passed) d.state.net.nextFuture none :=
    congrArg Ledger.passed ledger
  have next : n.net.nextFuture = d.state.net.nextFuture + 1 := congrArg Ledger.nextFuture ledger
  have step : ForkJoin.Step (d.pool cfg) (((d.resume w
      ⟨rest fs.length, fs ++ [d.state.net.nextFuture]⟩).pool cfg).promise child) :=
    .future (ok.resumes worker runs _)
  refine ⟨fine, .single ?_⟩
  rw [pool, passed, next]
  simp only [Pool.promise, Programmed.pool, Programmed.resume_state, Programmed.resume_source]
    at step ⊢
  exact step

/-- A step that leaves the tasks alone. -/
theorem Programmed.Ok.rests (ok : d.Ok cfg) (worker : w < cfg.numWorkers) {c : Choice}
    (moved : wstep cfg w c (d.state.node w) = .ok n) (next : Refines cfg (d.state.put w n))
    (pieces : n.pieces cfg = (d.state.node w).pieces cfg)
    (ledger : n.ledger = (d.state.node w).ledger)
    (chain : Chain d.job (d.bottom w) n.self.stack.awaits n.self.stack.below) :
    Follows cfg d { d with state := d.state.put w n } := by
  refine ⟨ok.put worker moved next rfl ⟨fun _ _ _ => rfl, .inl rfl⟩ ?_ chain, ?_⟩
  · rw [pieces_put worker, pieces, ← pieces_node worker]
    exact ok.fits
  · rw [pool_put worker rfl pieces (congrArg Ledger.passed ledger)
      (congrArg Ledger.nextFuture ledger)]

/-- The current task goes on when the call has returned. -/
theorem Programmed.Ok.goesOn (ok : d.Ok cfg) (worker : w < cfg.numWorkers) {c : Choice}
    (moved : wstep cfg w c (d.state.node w) = .ok n) (next : Refines cfg (d.state.put w n))
    (pieces : n.pieces cfg = (d.state.node w).pieces cfg)
    (passed : n.ledger.passed = (d.state.node w).ledger.passed)
    (future : n.ledger.nextFuture = (d.state.node w).ledger.nextFuture)
    (stack : n.self.stack = ⟨none, (d.state.workers w).stack.below⟩)
    (master : (d.state.workers w).frames = [] → w = 0) (runs : d.code w = some code)
    (code' : Code Bounds ε Value) :
    Programmed.Ok cfg { d.resume w code' with state := d.state.put w n } ∧
      ({ d.resume w code' with state := d.state.put w n } : Programmed ε).pool cfg =
        (d.resume w code').pool cfg := by
  have touches := Programmed.touches_resume master code'
  refine ⟨ok.put worker moved next rfl ⟨touches.job, touches.root⟩ ?_ ?_,
    pool_put worker Programmed.resume_state pieces passed future⟩
  · rw [pieces_put worker, pieces, ← pieces_node worker]
    exact ok.fits_resume worker runs
  · rw [stack]
    exact touches.awake ok worker

theorem Programmed.Ok.await {k f : ℕ} {rest : Value → Program Bounds ε Value} (ok : d.Ok cfg)
    (worker : w < cfg.numWorkers) (here : (d.state.workers w).pc = .user)
    (runs : d.code w = some ⟨.await k rest, fs⟩) (known : fs[k]? = some f)
    (moved : wstep cfg w ⟨.await (.own f), o, false⟩ (d.state.node w) = .ok n) :
    Follows cfg d { d with state := d.state.put w n } := by
  obtain ⟨step, next⟩ := ok.refines.works worker moved fun _ => by simp
  obtain ⟨pieces, stack, ledger⟩ := step.asked here rfl
  refine ok.rests worker moved next pieces ledger ?_
  rw [stack]
  exact ok.suspends worker here runs ⟨k, rest, fs, rfl, known⟩

theorem stack_eq_user {x : Worker} (here : x.pc = .user) : x.stack = ⟨none, x.stack.below⟩ := by
  rw [← stack_user here]

theorem Programmed.Ok.skip (ok : d.Ok cfg) (worker : w < cfg.numWorkers)
    (here : (d.state.workers w).pc = .user) (runs : d.code w = some ⟨.skip rest, fs⟩)
    (moved : wstep cfg w ⟨.poll, o, false⟩ (d.state.node w) = .ok n) :
    Follows cfg d { d.resume w ⟨rest, fs⟩ with state := d.state.put w n } := by
  obtain ⟨step, next⟩ := ok.refines.works worker moved fun _ => by simp
  obtain ⟨pieces, stack, ledger⟩ := step.polled here rfl
  obtain ⟨fine, pool⟩ := ok.goesOn worker moved next pieces (congrArg _ ledger) (congrArg _ ledger)
    (stack.trans (stack_eq_user here)) (ok.master worker here) runs ⟨rest, fs⟩
  refine ⟨fine, .single ?_⟩
  rw [pool]
  exact .skip (ok.resumes worker runs _)

/-- The master enters `RT_barrier`; in a task of another worker the call returns at once. -/
theorem Programmed.Ok.join (ok : d.Ok cfg) (worker : w < cfg.numWorkers)
    (here : (d.state.workers w).pc = .user) (runs : d.code w = some ⟨.join rest, fs⟩)
    (moved : wstep cfg w ⟨.barrier, o, false⟩ (d.state.node w) = .ok n) :
    Follows cfg d (if w = 0 then { d with state := d.state.put w n }
      else { d.resume w ⟨rest, fs⟩ with state := d.state.put w n }) := by
  obtain ⟨step, next⟩ := ok.refines.works worker moved fun _ => by simp
  obtain ⟨pieces, ledger, ⟨other, stack⟩ | ⟨master, stack⟩⟩ := step.barrier here rfl
  · rw [if_neg other]
    have task : (d.state.workers w).frames ≠ [] := fun empty => other (ok.master worker here empty)
    obtain ⟨fine, pool⟩ := ok.goesOn worker moved next pieces (congrArg _ ledger)
      (congrArg _ ledger) (stack.trans (stack_eq_user here)) (ok.master worker here) runs ⟨rest, fs⟩
    obtain ⟨goes, root⟩ := ok.continues worker runs task ⟨rest, fs⟩
    refine ⟨fine, .single ?_⟩
    have same : (d.resume w ⟨rest, fs⟩).pool cfg = { d.pool cfg with
        threads := threadsOf (d.resume w ⟨rest, fs⟩).job (d.state.pieces cfg) } := by
      simp only [Programmed.pool, root, Programmed.resume_state, Programmed.resume_source,
        Programmed.resume_log]
    rw [pool, same]
    exact .pass goes
  · rw [if_pos master]
    refine ok.rests worker moved next pieces ledger ?_
    rw [stack]
    exact ok.suspends worker here runs ⟨rest, fs, rfl⟩

end User

/-! ## Tasks that return, and iterations -/

section Iterations

/-- The current task returns, and its thread ends. -/
theorem Programmed.Ok.finish {value : Value} {t : Task} (ok : d.Ok cfg)
    (worker : w < cfg.numWorkers) (here : (d.state.workers w).pc = .user)
    (current : (d.state.workers w).currentTask = some t)
    (moved : wstep cfg w ⟨.finish value, o, false⟩ (d.state.node w) = .ok n)
    (through : (∃ fs, d.job t.id = .plain ⟨.ret value, fs⟩) ∨
      ∃ body, (d.job t.id).thread t.piece = .loop body 0 none ∧ t.future = none) :
    Follows cfg d { d with state := d.state.put w n } := by
  obtain ⟨step, next⟩ := ok.refines.works worker moved fun _ => by simp
  obtain ⟨frame, tail, frames, pieces, stack, ledger⟩ := step.finished here rfl
  obtain rfl : frame.task = t := Option.some.inj ((currentTask_eq_some frames).symm.trans current)
  have all : d.state.pieces cfg = frame.task.piece ::ₘ (d.state.put w n).pieces cfg := by
    rw [pieces_put worker, pieces_node worker, pieces, Multiset.cons_add]
  have passed : (fun f => (n.net.futures f).passed) =
      ((d.state.node w).ledger.finish frame.task value).passed := congrArg Ledger.passed ledger
  have unchanged : n.net.nextFuture = d.state.net.nextFuture := congrArg Ledger.nextFuture ledger
  have before : (d.pool cfg).threads =
      (d.job frame.task.id).thread frame.task.piece ::ₘ
        threadsOf d.job ((d.state.put w n).pieces cfg) :=
    (congrArg (threadsOf d.job) all).trans (threadsOf_cons ..)
  have after : ({ d with state := d.state.put w n } : Programmed ε).pool cfg = { d.pool cfg with
      threads := threadsOf d.job ((d.state.put w n).pieces cfg)
      resolved := ((d.state.node w).ledger.finish frame.task value).passed } := by
    rw [← passed, Programmed.pool, Programmed.pool]
    simp only [State.put, unchanged]
  refine ⟨ok.put worker moved next rfl ⟨fun _ _ _ => rfl, .inl rfl⟩ (fun p member => ?_) ?_,
    .single ?_⟩
  · exact ok.fits p (all ▸ Multiset.mem_cons_of_mem member)
  · have chain := ok.chain w worker
    rw [Worker.stack, show (d.state.workers w).frames = frame :: tail from frames] at chain
    rw [stack]
    exact chain.2
  · rw [after]
    rcases through with ⟨fs, plain⟩ | ⟨body, loop, none⟩
    · rw [plain, show Job.thread _ _ = .plain _ frame.task.future from rfl] at before
      cases future : frame.task.future with
      | none =>
        simp only [Ledger.finish, future]
        exact .returns (future ▸ before)
      | some f =>
        simp only [Ledger.finish, future]
        exact .delivers (future ▸ before)
    · rw [loop] at before
      simp only [Ledger.finish, none]
      exact .closes before

/-- The current task is a loop, and another piece of it is left. -/
theorem Programmed.Ok.replaces (ok : d.Ok cfg) (worker : w < cfg.numWorkers) {c : Choice}
    (moved : wstep cfg w c (d.state.node w) = .ok n) (next : Refines cfg (d.state.put w n))
    (here : (d.state.workers w).pc = .user) {t : Task} {p : Piece} {rest : Multiset Piece}
    (current : (d.state.workers w).currentTask = some t)
    (before : (d.state.node w).pieces cfg = t.piece ::ₘ rest) (after : n.pieces cfg = p ::ₘ rest)
    (stack : n.self.stack = (d.state.workers w).stack) (ledger : n.ledger = (d.state.node w).ledger)
    (same : p.id = t.id) (j : Job ε) (fits : j.Fits p) :
    Programmed.Ok cfg { d with state := d.state.put w n, job := update d.job t.id j } ∧
      ∃ others, (d.pool cfg).threads = (d.job t.id).thread t.piece ::ₘ others ∧
        ({ d with state := d.state.put w n, job := update d.job t.id j } :
          Programmed ε).pool cfg = { d.pool cfg with threads := j.thread p ::ₘ others } := by
  have touches := Programmed.touches_current current j
  obtain ⟨others, whole, replaced⟩ : ∃ others, d.state.pieces cfg = t.piece ::ₘ others ∧
      (d.state.put w n).pieces cfg = p ::ₘ others := by
    refine ⟨rest + Family.others cfg.numWorkers (fun v => (d.state.workers v).pieces) w, ?_, ?_⟩
    · rw [pieces_node worker, before, Multiset.cons_add]
    · rw [pieces_put worker, after, Multiset.cons_add]
  have apart : ∀ q ∈ others, q.id ≠ t.id := fun q => ok.refines.current_only whole
  refine ⟨ok.put worker moved next rfl ⟨touches.job, touches.root⟩ ?_ ?_, threadsOf d.job others,
    ?_, ?_⟩
  · rw [replaced]
    intro q member
    rcases Multiset.mem_cons.mp member with rfl | member
    · simpa [same] using fits
    · simpa [apart q member] using ok.fits q (whole ▸ Multiset.mem_cons_of_mem member)
  · rw [stack, stack_user here]
    exact touches.awake ok worker
  · exact (congrArg (threadsOf d.job) whole).trans (threadsOf_cons ..)
  · have passed : (fun f => (n.net.futures f).passed) = fun f => (d.state.net.futures f).passed :=
      congrArg Ledger.passed ledger
    have nextFuture : n.net.nextFuture = d.state.net.nextFuture := congrArg Ledger.nextFuture ledger
    simp only [Programmed.pool, replaced]
    rw [show (d.state.put w n).net = n.net from rfl, passed, nextFuture,
      threadsOf_update t.id same apart]

theorem Programmed.Ok.fits_current (ok : d.Ok cfg) (worker : w < cfg.numWorkers) {t : Task}
    (current : (d.state.workers w).currentTask = some t) : (d.job t.id).Fits t.piece :=
  ok.fits t.piece (current_mem_pieces worker current)

theorem LoopOk.entered {t : Task} {current : Option (Code Bounds ε Value)}
    (ok : LoopOk t.piece current) (start : t.iter = none) :
    LoopOk t.entered current ∧ t.entered.left current = t.piece.left current := by
  obtain ⟨unstarted, cur, upward⟩ := ok.before start
  obtain rfl := unstarted
  simp only [Task.piece] at cur upward
  have startFits := ok.start_fits
  have stopFits := ok.stop_fits
  simp only [Task.piece] at startFits stopFits
  have bumped : long (t.range.cur + 1) = t.range.start + 1 := by
    rw [cur]
    exact long_eq ⟨by have := startFits.1; omega, by have := stopFits.2; omega⟩
  have started : t.entered.iter ≠ none := by simp [Task.entered]
  refine ⟨⟨startFits, stopFits, ok.width_fits, fun unset => absurd unset started, ?_⟩, ?_⟩
  · intro i entered
    obtain rfl : t.range.start = i := Option.some.inj entered
    exact ⟨bumped, le_rfl, upward, by simp⟩
  · simp only [Piece.left, Task.entered, Task.piece, start, cur]

theorem LoopOk.advanced {t : Task} {i : ℤ} (ok : LoopOk t.piece (some code))
    (iter : t.iter = some i) : LoopOk (ε := ε) (t.advanced i) none ∧
      (t.advanced i).left (ε := ε) none = t.piece.left (some code) := by
  obtain ⟨cur, above, -, more⟩ := ok.inside i iter
  have below := more rfl
  have startFits := ok.start_fits
  have stopFits := ok.stop_fits
  simp only [Task.piece] at cur above below startFits stopFits
  have stepped : long (i + 1) = i + 1 :=
    long_eq ⟨by have := startFits.1; omega, by have := stopFits.2; omega⟩
  have bumped : long (t.range.cur + 1) = i + 1 + 1 := by
    rw [cur]
    exact long_eq ⟨by have := startFits.1; omega, by have := stopFits.2; omega⟩
  have started : (t.advanced i).iter ≠ none := by simp [Task.advanced]
  refine ⟨⟨startFits, stopFits, ok.width_fits, fun unset => absurd unset started, ?_⟩, ?_⟩
  · intro k advanced
    obtain rfl : long (i + 1) = k := Option.some.inj advanced
    simp only [Task.advanced, Task.piece, stepped, bumped]
    exact ⟨trivial, by omega, by omega, by simp⟩
  · simp only [Piece.left, Task.advanced, Task.piece, iter, stepped, cur]

theorem Programmed.Ok.enter {t : Task} {body : ℤ → Program Bounds ε Value} (ok : d.Ok cfg)
    (worker : w < cfg.numWorkers) (here : (d.state.workers w).pc = .user)
    (current : (d.state.workers w).currentTask = some t) (job : d.job t.id = .loop body none)
    (start : t.iter = none) (moved : wstep cfg w ⟨.asyncFor, o, false⟩ (d.state.node w) = .ok n) :
    Follows cfg d { d with state := d.state.put w n } := by
  obtain ⟨step, next⟩ := ok.refines.works worker moved fun _ => by simp
  obtain ⟨t', rest, top, -, -, before, after, stack, ledger⟩ := step.entered here rfl
  obtain rfl : t' = t := Option.some.inj (top.symm.trans current)
  obtain ⟨splittable, future, loop⟩ := job ▸ ok.fits_current worker current
  obtain ⟨fine, left⟩ := loop.entered start
  obtain ⟨fine, others, threads, pool⟩ := ok.replaces worker moved next here current before after
    stack ledger rfl (.loop body none) ⟨splittable, future, fine⟩
  rw [← job, update_eq_self] at fine pool
  refine ⟨fine, ?_⟩
  rw [pool, job, Job.thread, left]
  rw [job, Job.thread] at threads
  rw [← threads]

theorem Programmed.Ok.advance {t : Task} {body : ℤ → Program Bounds ε Value} {value : Value}
    {fs : List ℕ} (ok : d.Ok cfg) (worker : w < cfg.numWorkers)
    (here : (d.state.workers w).pc = .user) (current : (d.state.workers w).currentTask = some t)
    (job : d.job t.id = .loop body (some ⟨.ret value, fs⟩))
    (moved : wstep cfg w ⟨.iterate, o, false⟩ (d.state.node w) = .ok n) :
    Follows cfg d { d with
      state := d.state.put w n, job := update d.job t.id (.loop body none) } := by
  obtain ⟨step, next⟩ := ok.refines.works worker moved fun _ => by simp
  obtain ⟨t', i, rest, top, iter, -, before, after, stack, ledger⟩ := step.iterated here rfl
  obtain rfl : t' = t := Option.some.inj (top.symm.trans current)
  obtain ⟨splittable, future, loop⟩ := job ▸ ok.fits_current worker current
  obtain ⟨fine, left⟩ := loop.advanced iter
  obtain ⟨fine, others, threads, pool⟩ := ok.replaces worker moved next here current before after
    stack ledger rfl (.loop body none) ⟨splittable, future, fine⟩
  refine ⟨fine, .single ?_⟩
  rw [pool, Job.thread, left]
  rw [job, Job.thread] at threads
  exact .ends threads

theorem Programmed.Ok.begin {t : Task} {i : ℤ} {body : ℤ → Program Bounds ε Value} (ok : d.Ok cfg)
    (worker : w < cfg.numWorkers) (here : (d.state.workers w).pc = .user)
    (current : (d.state.workers w).currentTask = some t) (job : d.job t.id = .loop body none)
    (iter : t.iter = some i) (below : i < t.range.stop) :
    Follows cfg d
      { d with job := update d.job t.id (.loop body (some ⟨body i, []⟩)) } := by
  obtain ⟨splittable, future, loop⟩ := job ▸ ok.fits_current worker current
  obtain ⟨cur, above, atMost, -⟩ := loop.inside i iter
  obtain ⟨ret, tail, frames⟩ := exists_frames current
  obtain ⟨rest, pieces, -⟩ := pieces_current worker frames
  have apart : ∀ q ∈ rest, q.id ≠ t.id := fun q => ok.refines.current_only pieces
  refine ⟨ok.stay worker here rfl (Programmed.touches_current current _) fun q member => ?_,
    .single ?_⟩
  · rw [pieces] at member
    dsimp only
    rcases Multiset.mem_cons.mp member with rfl | member
    · rw [show (Task.piece t).id = t.id from rfl, update_self]
      refine ⟨splittable, future, loop.start_fits, loop.stop_fits, loop.width_fits,
        fun unentered => ?_, fun k inside => ?_⟩
      · cases iter.symm.trans unentered
      · obtain rfl : i = k := Option.some.inj (iter.symm.trans inside)
        exact ⟨cur, above, atMost, fun _ => below⟩
    · rw [update_of_ne (apart q member)]
      exact ok.fits q (pieces ▸ Multiset.mem_cons_of_mem member)
  · have threads : (d.pool cfg).threads =
        .loop body (i ::ₘ iterations (i + 1) t.range.stop) none ::ₘ threadsOf d.job rest := by
      rw [Programmed.pool, pieces, threadsOf_cons, show (Task.piece t).id = t.id from rfl, job,
        Job.thread, ← iterations_cons below]
      simp only [Piece.left, Task.piece, iter]
    have step := ForkJoin.Step.begins threads
    have left : t.piece.left (some ⟨body i, []⟩) = iterations (i + 1) t.range.stop := by
      simp only [Piece.left, Task.piece, iter] at cur ⊢
      rw [cur]
    have pool : ({ d with job := update d.job t.id (.loop body (some ⟨body i, []⟩)) } :
        Programmed ε).pool cfg = { d.pool cfg with
          threads := .loop body (iterations (i + 1) t.range.stop) (some ⟨body i, []⟩) ::ₘ
            threadsOf d.job rest } := by
      simp only [Programmed.pool, pieces]
      rw [threadsOf_update t.id rfl apart, Job.thread, left]
    rw [pool]
    exact step

theorem Programmed.Ok.close {t : Task} {i : ℤ} {body : ℤ → Program Bounds ε Value} (ok : d.Ok cfg)
    (worker : w < cfg.numWorkers) (here : (d.state.workers w).pc = .user)
    (current : (d.state.workers w).currentTask = some t) (job : d.job t.id = .loop body none)
    (iter : t.iter = some i) (above : ¬ i < t.range.stop)
    (moved : wstep cfg w ⟨.finish [], o, false⟩ (d.state.node w) = .ok n) :
    Follows cfg d { d with state := d.state.put w n } := by
  obtain ⟨-, future, -⟩ := job ▸ ok.fits_current worker current
  refine ok.finish worker here current moved (.inr ⟨body, ?_, future⟩)
  have left : t.piece.left (ε := ε) none = 0 := by
    simp only [Piece.left, Task.piece, iter]
    have none : (t.range.stop - i).toNat = 0 := by omega
    rw [iterations, none]
    rfl
  rw [job, Job.thread, left]

end Iterations

section Steps

variable {d' : Programmed ε}

theorem called {f : State → Programmed ε} {act : UserAct}
    (stepped : (do let s ← d.call cfg w o act; return f s) = Except.ok d') :
    ∃ n, wstep cfg w ⟨act, o, false⟩ (d.state.node w) = .ok n ∧ d' = f (d.state.put w n) := by
  cases call : d.call cfg w o act with
  | error e => simp [call, bind, Except.bind] at stepped
  | ok s =>
    obtain ⟨n, moved, rfl⟩ := call_eq call
    simp only [call, bind, Except.bind, pure, Except.pure, Except.ok.injEq] at stepped
    exact ⟨n, moved, stepped.symm⟩

theorem code_of_task {t : Task} (current : (d.state.workers w).currentTask = some t) :
    d.code w = (d.job t.id).code := by
  rw [Programmed.code, current]

theorem Programmed.Ok.returns {value : Value} {fs : List ℕ} (ok : d.Ok cfg)
    (worker : w < cfg.numWorkers) (here : (d.state.workers w).pc = .user)
    (runs : d.code w = some ⟨.ret value, fs⟩) (stepped : d.finish cfg w o value = .ok d') :
    Follows cfg d d' := by
  unfold Programmed.finish at stepped
  split at stepped
  · cases stepped
  · next t current =>
    rw [code_of_task current] at runs
    split at stepped
    · next code job =>
      obtain ⟨n, moved, rfl⟩ := called stepped
      rw [job] at runs
      obtain rfl : code = ⟨.ret value, fs⟩ := Option.some.inj runs
      exact ok.finish worker here current moved (.inl ⟨fs, job⟩)
    · next body iteration job =>
      obtain ⟨n, moved, rfl⟩ := called stepped
      rw [job] at runs
      obtain rfl : iteration = some ⟨.ret value, fs⟩ := runs
      exact ok.advance worker here current job moved

theorem Programmed.Ok.request (ok : d.Ok cfg) (worker : w < cfg.numWorkers)
    (here : (d.state.workers w).pc = .user) (runs : d.code w = some code)
    (stepped : d.request cfg w o code = .ok d') : Follows cfg d d' := by
  obtain ⟨program, fs⟩ := code
  cases program with
  | ret value => exact ok.returns worker here runs stepped
  | emit e rest =>
    obtain rfl := Except.ok.inj stepped
    exact ok.emit worker here runs
  | async child rest =>
    obtain ⟨n, moved, rfl⟩ := called stepped
    exact ok.async worker here runs moved
  | each b body rest =>
    obtain ⟨n, moved, rfl⟩ := called stepped
    exact ok.each worker here runs moved
  | future child rest =>
    obtain ⟨n, moved, rfl⟩ := called stepped
    exact ok.future worker here runs moved
  | await k rest =>
    simp only [Programmed.request] at stepped
    split at stepped
    · cases stepped
    · next f known =>
      obtain ⟨n, moved, rfl⟩ := called stepped
      exact ok.await worker here runs known moved
  | skip rest =>
    obtain ⟨n, moved, rfl⟩ := called stepped
    exact ok.skip worker here runs moved
  | join rest =>
    have step : (do
        let s ← d.call cfg w o .barrier
        return if w = 0 then { d with state := s } else { d.resume w ⟨rest, fs⟩ with state := s }) =
        Except.ok d' := by
      simpa only [Programmed.request, apply_ite] using stepped
    obtain ⟨n, moved, rfl⟩ := called step
    exact ok.join worker here runs moved

theorem Programmed.Ok.userStep (ok : d.Ok cfg) (worker : w < cfg.numWorkers)
    (here : (d.state.workers w).pc = .user) (stepped : d.userStep cfg w o = .ok d') :
    Follows cfg d d' := by
  unfold Programmed.userStep at stepped
  split at stepped
  · next none => exact ok.request worker here (by rw [Programmed.code, none]) stepped
  · next t current =>
    split at stepped
    · next code job =>
      exact ok.request worker here ((code_of_task current).trans (congrArg Job.code job)) stepped
    · next code job =>
      exact ok.request worker here ((code_of_task current).trans (congrArg Job.code job)) stepped
    · next body job =>
      unfold Programmed.iterate at stepped
      split at stepped
      · next start =>
        obtain ⟨n, moved, rfl⟩ := called stepped
        exact ok.enter worker here current job start moved
      · next i iter =>
        split at stepped
        · next below =>
          obtain rfl := Except.ok.inj stepped
          exact ok.begin worker here current job iter below
        · next above =>
          obtain ⟨n, moved, rfl⟩ := called stepped
          exact ok.close worker here current job iter above moved

end Steps

/-! ## The runtime -/

section Runtime

variable {d' : Programmed ε} {s : State} {c : Choice}

/-- A step that creates no task copies none. -/
theorem Programmed.copied_eq_self (same : s.net.nextId = d.state.net.nextId) :
    d.copied w s = d := by
  unfold Programmed.copied
  split <;> simp only [same, if_true]

/-- A call returns when the code is no longer suspended. -/
theorem Programmed.returned_eq_self
    (same : (s.workers w).stack.awaits = (d.state.workers w).stack.awaits) :
    d.returned w s = d := by
  unfold Programmed.returned
  split
  · next f point here there _ =>
    rw [stack_user there, Worker.stack, here] at same
    cases same
  · next here there _ =>
    rw [stack_user there, Worker.stack, here] at same
    cases same
  · rfl

/-- What suspended code has asked for. -/
theorem Programmed.Ok.asked (ok : d.Ok cfg) (worker : w < cfg.numWorkers) {site : Site}
    (awaits : (d.state.workers w).stack.awaits = some site)
    (master : (d.state.workers w).frames = [] → w = 0) : Suspended (d.code w) (some site) := by
  have chain := ok.chain w worker
  rw [awaits, Worker.stack] at chain
  cases frames : (d.state.workers w).frames with
  | nil =>
    rw [frames, Programmed.bottom, if_pos (master frames)] at chain
    rw [Programmed.code, currentTask_eq_none frames]
    exact chain
  | cons frame tail =>
    rw [frames] at chain
    rw [code_of_task (currentTask_eq_some frames)]
    exact chain.1

theorem pieces_eq_zero (rested : ∀ v < cfg.numWorkers, (s.workers v).deque = [] ∧
      (s.workers v).frames = [] ∧ (s.workers v).pc.held = none)
    (channels : ∀ v c, s.net.chanTasks v c = none) : s.pieces cfg = 0 := by
  have ids := ids_pieces cfg s
  rw [custody_empty rested channels] at ids
  exact Multiset.map_eq_zero.mp ids.symm

/-- When `RT_barrier` returns no task is left, so that the join of the main program can be taken
as well. -/
theorem Programmed.Ok.pieces_barrier (ok : d.Ok cfg)
    (here : (d.state.workers 0).pc = .barrierExit) : d.state.pieces cfg = 0 := by
  have quiescent := (ok.refines.loc 0 cfg.someWorker).leaves_quiescent here
  obtain ⟨rested, channels⟩ := ok.settles.rested ok.refines quiescent
  exact pieces_eq_zero rested channels

/-- A task between its bounds is not split when the iteration variable has passed the end. -/
theorem cur_le_stop {r : LoopRange} (below : r.cur ≤ r.stop + 1) (more : splittable r) :
    r.cur ≤ r.stop := by
  by_contra past
  have left : r.stop - r.cur = -1 := by omega
  have one : labs (long (-1)) = 1 := by decide
  rw [splittable, itersLeft, left, one] at more
  omega

/-- `cur` is ahead of the iteration variable. -/
theorem LoopOk.ascending {p : Piece} {current : Option (Code Bounds ε Value)}
    (ok : LoopOk p current) (more : splittable p.range) : Ascending p.range := by
  obtain ⟨startFits, stopFits, widthFits, before, inside⟩ := ok
  have between : p.range.start ≤ p.range.cur ∧ p.range.cur ≤ p.range.stop + 1 := by
    cases iter : p.iter with
    | none =>
      obtain ⟨-, cur, upward⟩ := before iter
      omega
    | some i =>
      obtain ⟨cur, above, below, -⟩ := inside i iter
      omega
  have upward := cur_le_stop between.2 more
  have low := startFits.1
  have high := stopFits.2
  exact ⟨between.1, upward, startFits, ⟨by omega, by omega⟩, widthFits⟩

/-- A loop task that is split has the iterations of both parts. -/
theorem LoopOk.splits {t : Task} {split : ℤ} {current : Option (Code Bounds ε Value)} {l : Ledger}
    (ok : LoopOk t.piece current) (can : t.canSplit = true)
    (cut : splitFunc cfg.split cfg.numWorkers o.pending t.range = .ok split) :
    LoopOk (t.lower split) current ∧ LoopOk (ε := ε) (l.upper t split) none ∧
      t.piece.left current =
        (t.lower split).left current + (l.upper t split).left (ε := ε) none := by
  have more : splittable t.range := by simpa [Task.canSplit] using (Bool.and_eq_true_iff.mp can).2
  have up : Ascending t.range := ok.ascending more
  obtain ⟨split', same, above, below⟩ := splitFunc_strict cfg.split cfg.numWorkers o.pending up more
  obtain rfl : split = split' := Except.ok.inj (cut.symm.trans same)
  obtain ⟨startCur, -, ⟨low, -⟩, ⟨-, high⟩, -, wide⟩ := up
  refine ⟨⟨ok.start_fits, ?_, ?_, fun unentered => ?_, fun i entered => ?_⟩,
    ⟨?_, ok.stop_fits, ?_, fun _ => ⟨rfl, rfl, below.le⟩,
      fun _ started => absurd started (by simp [Ledger.upper])⟩, ?_⟩
  · exact ⟨by simp only [Task.lower, LoopRange.lower]; omega,
      by simp only [Task.lower, LoopRange.lower]; omega⟩
  · exact ⟨by simp only [Task.lower, LoopRange.lower, Task.piece]; omega,
      by simp only [Task.lower, LoopRange.lower, Task.piece]; omega⟩
  · obtain ⟨unstarted, cur, -⟩ := ok.before unentered
    exact ⟨unstarted, cur, by simp only [Task.lower, LoopRange.lower, Task.piece]; omega⟩
  · obtain ⟨cur, from_start, -, -⟩ := ok.inside i entered
    simp only [Task.lower, LoopRange.lower, Task.piece] at cur from_start ⊢
    exact ⟨cur, from_start, by omega, fun _ => by omega⟩
  · exact ⟨by simp only [Ledger.upper, LoopRange.upper]; omega,
      by simp only [Ledger.upper, LoopRange.upper]; omega⟩
  · exact ⟨by simp only [Ledger.upper, LoopRange.upper]; omega,
      by simp only [Ledger.upper, LoopRange.upper]; omega⟩
  · have rest : (l.upper t split).left (ε := ε) none = iterations split t.range.stop := rfl
    rw [rest]
    have halves {i : ℤ} (before : i ≤ split) : (iterations i t.range.stop : Multiset ℤ) =
        iterations i split + iterations split t.range.stop := iterations_add before below.le
    cases iter : t.iter with
    | none =>
      simp only [Piece.left, Task.piece, Task.lower, LoopRange.lower, iter]
      exact halves above.le
    | some i =>
      obtain ⟨cur, -⟩ := ok.inside i iter
      simp only [Task.piece] at cur
      cases current with
      | none =>
        simp only [Piece.left, Task.piece, Task.lower, LoopRange.lower, iter]
        exact halves (by omega)
      | some code =>
        simp only [Piece.left, Task.piece, Task.lower, LoopRange.lower, iter]
        exact halves above.le

theorem Programmed.Ok.split {t : Task} {split : ℤ} (ok : d.Ok cfg) (worker : w < cfg.numWorkers)
    (moved : wstep cfg w c (d.state.node w) = .ok n) (next : Refines cfg (d.state.put w n))
    (cuts : Cuts cfg o t split (d.state.node w) n) :
    Follows cfg d { d.create (d.job t.id).dup with state := d.state.put w n } := by
  obtain ⟨can, cut, ⟨rest, before, after⟩, stack, ledger⟩ := cuts
  obtain ⟨others, whole, parts⟩ : ∃ others, d.state.pieces cfg = t.piece ::ₘ others ∧
      (d.state.put w n).pieces cfg =
        t.lower split ::ₘ (d.state.node w).ledger.upper t split ::ₘ others := by
    refine ⟨rest + Family.others cfg.numWorkers (fun v => (d.state.workers v).pieces) w, ?_, ?_⟩
    · rw [pieces_node worker, before, Multiset.cons_add]
    · rw [pieces_put worker, after, Multiset.cons_add, Multiset.cons_add]
  have old : ∀ p ∈ d.state.pieces cfg, p.id ≠ d.state.net.nextId :=
    fun p member => (ok.refines.pieces_lt member).ne
  have mine : t.piece ∈ d.state.pieces cfg := whole ▸ Multiset.mem_cons_self _ _
  have here : t.id ≠ d.state.net.nextId := old t.piece mine
  have apart : ∀ p ∈ others, p.id ≠ d.state.net.nextId := fun p member =>
    old p (whole ▸ Multiset.mem_cons_of_mem member)
  -- Only loops are splittable.
  obtain ⟨body, current, job⟩ : ∃ body current, d.job t.id = .loop body current := by
    cases job : d.job t.id with
    | plain code =>
      have fits := ok.fits t.piece mine
      rw [show (Task.piece t).id = t.id from rfl, job] at fits
      simp [Task.canSplit, show t.splittable = false from fits] at can
    | loop body current => exact ⟨body, current, rfl⟩
  obtain ⟨splittable, future, loop⟩ : (Job.loop body current).Fits t.piece :=
    job ▸ ok.fits t.piece mine
  obtain ⟨lower, upper, left⟩ := loop.splits (l := (d.state.node w).ledger) can cut
  have touches : Touches d w (d.create (d.job t.id).dup) :=
    Programmed.touches_create Programmed.touches_refl rfl _
  rw [job, Job.dup] at touches ⊢
  refine ⟨ok.put worker moved next rfl ⟨touches.job, touches.root⟩ ?_ ?_, .single ?_⟩
  · rw [parts]
    intro p member
    simp only [Programmed.create]
    rcases Multiset.mem_cons.mp member with rfl | member
    · rw [show (t.lower split).id = t.id from rfl, update_of_ne here, job]
      exact ⟨splittable, future, lower⟩
    · rcases Multiset.mem_cons.mp member with rfl | member
      · rw [show ((d.state.node w).ledger.upper t split).id = d.state.net.nextId from rfl,
          update_self]
        refine ⟨splittable, ?_, upper⟩
        simp only [Ledger.upper, show t.future = none from future, Option.isSome_none,
          Bool.false_eq_true, if_false]
      · rw [update_of_ne (apart p member)]
        exact ok.fits p (whole ▸ Multiset.mem_cons_of_mem member)
  · rw [stack]
    refine (ok.chain w worker).congr fun e member => ?_
    obtain ⟨frame, listed, rfl⟩ := List.mem_map.mp member
    exact update_of_ne (old frame.task.piece (mem_pieces worker listed)) _ _
  · have threads : (d.pool cfg).threads = .loop body ((t.lower split).left current +
        ((d.state.node w).ledger.upper t split).left (ε := ε) none) current ::ₘ
          threadsOf d.job others := by
      rw [← left, Programmed.pool, whole, threadsOf_cons, show (Task.piece t).id = t.id from rfl,
        job]
      rfl
    have same : (fun f => (n.net.futures f).passed) = fun f => (d.state.net.futures f).passed := by
      have passed := congrArg Ledger.passed ledger
      rwa [show t.future = none from future] at passed
    have sameNext : n.net.nextFuture = d.state.net.nextFuture := by
      have nextFuture := congrArg Ledger.nextFuture ledger
      rwa [show t.future = none from future] at nextFuture
    have pool : ({ d.create (.loop body none) with state := d.state.put w n } :
        Programmed ε).pool cfg = { d.pool cfg with
          threads := .loop body ((t.lower split).left current) current ::ₘ
            .loop body (((d.state.node w).ledger.upper t split).left (ε := ε) none) none ::ₘ
            threadsOf d.job others } := by
      simp only [Programmed.pool, Programmed.create, parts]
      rw [show (d.state.put w n).net = n.net from rfl, same, sameNext, threadsOf_cons,
        show (t.lower split).id = t.id from rfl, update_of_ne here, job,
        threadsOf_update d.state.net.nextId rfl apart]
      rfl
    rw [pool]
    exact .splits threads

/-- `RT_force_future` returns what the task of the future returned. -/
theorem Programmed.Ok.collect {f : ℕ} {value : Value} {point : ReadyPoint} (ok : d.Ok cfg)
    (worker : w < cfg.numWorkers) (moved : wstep cfg w c (d.state.node w) = .ok n)
    (next : Refines cfg (d.state.put w n))
    (here : (d.state.workers w).pc = .forceReady (.own f) point)
    (passed : (d.state.node w).ledger.passed f = some value)
    (pieces : n.pieces cfg = (d.state.node w).pieces cfg)
    (stack : n.self.stack = ⟨none, (d.state.workers w).stack.below⟩)
    (ledger : n.ledger = { (d.state.node w).ledger with
      result := update (d.state.node w).ledger.result f (some value) })
    (there : n.self.pc = .user) :
    Follows cfg d { d.returned w (d.state.put w n) with state := d.state.put w n } := by
  have site := (ok.refines.loc w worker).site
  rw [show (d.state.workers w).loc.pc = _ from here] at site
  have master : (d.state.workers w).frames = [] → w = 0 := fun empty =>
    site.resolve_right fun some => some (by simp [Worker.loc, empty])
  have awaits : (d.state.workers w).stack.awaits = some (.force (.own f)) := by
    rw [Worker.stack, here]
    rfl
  obtain ⟨k, rest, fs, runs, known⟩ := ok.asked worker awaits master
  have result : (n.net.futures f).result = some value := by
    have results : n.ledger.result f = some value := by
      rw [ledger]
      exact update_self _ _ _
    exact results
  have resumed : d.returned w (d.state.put w n) = d.resume w ⟨rest value, fs⟩ := by
    have self := d.state.put_self w n
    have net : (d.state.put w n).net = n.net := rfl
    simp only [Programmed.returned, here, self, net, there, runs, result]
  rw [resumed]
  obtain ⟨fine, pool⟩ := ok.goesOn worker moved next pieces (by rw [ledger]) (by rw [ledger]) stack
    master runs ⟨rest value, fs⟩
  refine ⟨fine, .single ?_⟩
  rw [pool]
  exact .await known passed (ok.resumes worker runs _)

theorem Programmed.Ok.leave (ok : d.Ok cfg) (worker : w < cfg.numWorkers)
    (moved : wstep cfg w c (d.state.node w) = .ok n) (next : Refines cfg (d.state.put w n))
    (here : (d.state.workers w).pc = .barrierExit)
    (pieces : n.pieces cfg = (d.state.node w).pieces cfg)
    (stack : n.self.stack = ⟨none, (d.state.workers w).stack.below⟩)
    (ledger : n.ledger = (d.state.node w).ledger) (there : n.self.pc = .user) :
    Follows cfg d { d.returned w (d.state.put w n) with state := d.state.put w n } := by
  have site := (ok.refines.loc w worker).site
  rw [show (d.state.workers w).loc.pc = _ from here] at site
  obtain ⟨rfl, rets⟩ := site
  have frames : (d.state.workers 0).frames = [] := List.map_eq_nil_iff.mp rets
  have awaits : (d.state.workers 0).stack.awaits = some .barrier := by
    rw [Worker.stack, here]
    rfl
  obtain ⟨rest, fs, runs⟩ := ok.asked worker awaits fun _ => rfl
  have resumed : d.returned 0 (d.state.put 0 n) = d.resume 0 ⟨rest, fs⟩ := by
    have self := d.state.put_self 0 n
    simp only [Programmed.returned, here, self, there, runs]
  rw [resumed]
  obtain ⟨fine, pool⟩ := ok.goesOn worker moved next pieces (congrArg _ ledger) (congrArg _ ledger)
    stack (fun _ => rfl) runs ⟨rest, fs⟩
  have root : (d.pool cfg).root = ⟨.join rest, fs⟩ := by
    rw [Programmed.code, currentTask_eq_none frames] at runs
    exact Option.some.inj runs
  have threads : (d.pool cfg).threads = 0 := by
    rw [Programmed.pool, ok.pieces_barrier here]
    rfl
  refine ⟨fine, .single ?_⟩
  have same : (d.resume 0 ⟨rest, fs⟩).pool cfg = { d.pool cfg with root := ⟨rest, fs⟩ } := by
    have resume : d.resume 0 ⟨rest, fs⟩ = { d with root := ⟨rest, fs⟩ } := by
      rw [Programmed.resume, currentTask_eq_none frames]
    rw [resume]
    rfl
  rw [pool, same]
  exact .join root threads

/-- A call that returns leaves its worker in user code. -/
theorem wstep_returns {m : Node}
    (here : m.self.pc = .barrierExit ∨ ∃ f point, m.self.pc = .forceReady (.own f) point)
    (moved : wstep cfg w c m = .ok n) (awake : n.self.stack.awaits = none) : n.self.pc = .user := by
  rcases here with here | ⟨f, point, here⟩
  · have returns : Ensures (fun _ => True) (wstep cfg w c m) fun n => n.self.pc = .user := by
      simp only [wstep, here, ensures_bind, ensures_check, ensures_pure]
      exact ⟨fun _ => rfl, fun _ => trivial⟩
    exact returns.value moved
  · have returns : Ensures (fun _ => True) (wstep cfg w c m) fun n =>
        n.self.stack.awaits = none → n.self.pc = .user := by
      simp only [wstep, here, forceStep, ensures_bind]
      refine ensures_answer fun content _ => ?_
      cases content with
      | none =>
        intro awake
        cases point <;> cases awake
      | some content => exact fun _ => rfl
    exact returns.value moved awake

theorem Programmed.Ok.move (ok : d.Ok cfg) (worker : w < cfg.numWorkers)
    (stepped : d.move cfg w o = .ok d') : Follows cfg d d' := by
  unfold Programmed.move at stepped
  split at stepped
  · next here => exact ok.userStep worker here stepped
  · next away =>
    obtain ⟨n, moved, rfl⟩ := called stepped
    obtain ⟨step, next⟩ := ok.refines.works worker moved fun here => absurd here away
    have self := d.state.put_self w n
    have unchanged (d' : Programmed ε) (state : d'.state = d.state)
        (stack : n.self.stack = (d.state.workers w).stack) :
        d'.returned w (d.state.put w n) = d' := by
      refine Programmed.returned_eq_self ?_
      rw [state, self, stack]
    have uncopied (ledger : n.ledger.nextId = (d.state.node w).ledger.nextId) :
        d.copied w (d.state.put w n) = d := Programmed.copied_eq_self ledger
    cases step with
    | idles _ pieces stack ledger =>
      rw [uncopied (congrArg _ ledger), unchanged d rfl stack]
      refine ok.rests worker moved next pieces ledger ?_
      rw [stack]
      exact ok.chain w worker
    | @splits t split _ given cuts =>
      have copied : d.copied w (d.state.put w n) = d.create (d.job t.id).dup := by
        have fresh : n.net.nextId ≠ d.state.net.nextId := by
          have created := congrArg Ledger.nextId cuts.ledger
          change n.net.nextId = d.state.net.nextId + 1 at created
          omega
        rw [Programmed.copied, show (d.state.workers w).splits = some t from given]
        exact if_neg fresh
      rw [copied, unchanged (d.create _) rfl cuts.stack]
      exact ok.split worker moved next cuts
    | @runs t _ held pieces stack ledger =>
      rw [uncopied (congrArg _ ledger)]
      have stays : d.returned w (d.state.put w n) = d := by
        unfold Programmed.returned
        split
        · next here _ _ => simp [State.node, here, Pc.held] at held
        · next here _ _ => simp [State.node, here, Pc.held] at held
        · rfl
      rw [stays]
      refine ok.rests worker moved next pieces ledger ?_
      rw [stack]
      exact ⟨Suspended.free, ok.chain w worker⟩
    | collects here passed pieces stack ledger =>
      rw [uncopied (by rw [ledger])]
      have there := wstep_returns (.inr ⟨_, _, here⟩) moved (by rw [stack])
      exact ok.collect worker moved next here passed pieces stack ledger there
    | leaves here pieces stack ledger =>
      rw [uncopied (congrArg _ ledger)]
      have there := wstep_returns (.inl here) moved (by rw [stack])
      exact ok.leave worker moved next here pieces stack ledger there
    | strays foreign _ _ =>
      rcases foreign with ⟨here, -⟩ | ⟨point, here⟩
      · exact absurd here away
      · exact absurd here (ok.not_foreign worker)
    | spawns here | enters here | iterates here | asks here | finishes here | waits here =>
      exact absurd here away

theorem pieces_init : (State.init cfg).pieces cfg = 0 := by
  refine pieces_eq_zero (fun v _ => ⟨rfl, rfl, ?_⟩) fun _ _ => rfl
  simp only [State.init, Worker.init]
  split <;> rfl

theorem Programmed.Ok.init (main : Program Bounds ε Value) :
    (Programmed.init cfg main).Ok cfg := by
  refine ⟨.init cfg, .init, fun p member => ?_, fun v inside => ?_⟩
  · rw [show (Programmed.init cfg main).state = State.init cfg from rfl, pieces_init] at member
    exact absurd member (Multiset.notMem_zero p)
  · simp only [Programmed.init, State.init, Worker.init, Worker.stack]
    split <;> exact Suspended.free

theorem pool_init (main : Program Bounds ε Value) :
    (Programmed.init cfg main).pool cfg = .init main := by
  simp only [Programmed.pool, Programmed.init, pieces_init]
  rfl

end Runtime

section Programs

variable {main : Program Bounds ε Value} {d' : Programmed ε}

theorem reachable_ok (reached : (programmed cfg main).Reachable d) :
    d.Ok cfg ∧ (parallel main).Reachable (d.pool cfg) := by
  obtain ⟨first, rfl, run⟩ := reached
  induction run with
  | refl => exact ⟨.init main, Transition.System.reachable_of_init (pool_init main)⟩
  | tail before step ih =>
    obtain ⟨ok, reached⟩ := ih
    obtain ⟨w, worker, o, moved⟩ := step
    obtain ⟨next, steps⟩ := ok.move worker moved
    exact ⟨next, reached.trans steps.to_reflTransGen⟩

end Programs

end Refinement

end Tasking.Runtime
