import Mathlib.Algebra.Order.Group.Multiset
import Tasking.LazyFutures
import Tasking.Transition

/-!
Who has which task.  A task is ready on a worker (in its deque, or popped or
received and about to run), running on a worker, or sent to a worker in one of
its task channels.  Steps create tasks, move them and finish them, and do to
their futures what the runtime does at that moment; requests do not appear.
-/
namespace Tasking.Custody
open Tasking.Runtime (LazyFuture Value)
open Fallible

inductive Spot where
  | ready (w : ℕ)
  | running (w : ℕ)
  | sent (owner chan : ℕ)
  deriving DecidableEq

def Spot.isRunning : Spot → Bool
  | .running _ => true
  | _ => false

/-- A task, as far as custody is concerned. -/
structure Tag where
  id : ℕ
  future : Option ℕ
  deriving DecidableEq

structure State where
  tasks : Multiset (Spot × Tag)
  created : Multiset ℕ
  started : Multiset ℕ
  finished : Multiset ℕ
  nextId : ℕ
  nextFuture : ℕ
  futures : ℕ → LazyFuture

/-- Tasks that are all at one spot. -/
def place (spot : Spot) (batch : Multiset Tag) : Multiset (Spot × Tag) := batch.map (Prod.mk spot)

/-- The futures after those of a batch are converted, as they are before the batch leaves its
worker. -/
def convertAll (batch : Multiset Tag) (futures : ℕ → LazyFuture) (f : ℕ) : LazyFuture :=
  if f ∈ batch.filterMap Tag.future then (futures f).convert else futures f

inductive Step (w : ℕ) : State → State → Prop where
  | create {a : State} : Step w a { a with
      tasks := (.ready w, ⟨a.nextId, none⟩) ::ₘ a.tasks
      created := a.nextId ::ₘ a.created, nextId := a.nextId + 1 }
  /-- The task comes with a future, lazy or with a channel from the start. -/
  | createFuture {a : State} {f : LazyFuture} (new : f = .alloc w ∨ f = .heap w) :
      Step w a { a with
        tasks := (.ready w, ⟨a.nextId, some a.nextFuture⟩) ::ₘ a.tasks
        created := a.nextId ::ₘ a.created, nextId := a.nextId + 1
        futures := Function.update a.futures a.nextFuture f, nextFuture := a.nextFuture + 1 }
  | start {a : State} {t : Tag} {rest : Multiset (Spot × Tag)}
      (held : a.tasks = (.ready w, t) ::ₘ rest) :
      Step w a { a with
        tasks := (.running w, t) ::ₘ rest, started := t.id ::ₘ a.started }
  | finish {a : State} {t : Tag} {rest : Multiset (Spot × Tag)}
      (held : a.tasks = (.running w, t) ::ₘ rest) (plain : t.future = none) :
      Step w a { a with tasks := rest, finished := t.id ::ₘ a.finished }
  /-- The result of a task goes into its future. -/
  | finishFuture {a : State} {t : Tag} {f : ℕ} {value : Value} {written : LazyFuture}
      {rest : Multiset (Spot × Tag)}
      (held : a.tasks = (.running w, t) ::ₘ rest) (future : t.future = some f)
      (wrote : (a.futures f).write value = .ok written) :
      Step w a { a with
        tasks := rest, finished := t.id ::ₘ a.finished
        futures := Function.update a.futures f written }
  /-- Tasks are sent to a channel of another worker, after conversion. -/
  | send {a : State} {owner chan : ℕ} {batch : Multiset Tag} {rest : Multiset (Spot × Tag)}
      (held : a.tasks = place (.ready w) batch + rest) :
      Step w a { a with
        tasks := place (.sent owner chan) batch + rest, futures := convertAll batch a.futures }
  | receive {a : State} {chan : ℕ} {batch : Multiset Tag} {rest : Multiset (Spot × Tag)}
      (held : a.tasks = place (.sent w chan) batch + rest) :
      Step w a { a with tasks := place (.ready w) batch + rest }
  | await {a : State} {f : ℕ} (own : (a.futures f).creator = w) :
      Step w a { a with
        futures := Function.update a.futures f { a.futures f with awaited := true } }
  | collect {a : State} {f : ℕ} {read : LazyFuture} (known : f < a.nextFuture)
      (own : (a.futures f).creator = w) (asked : (a.futures f).awaited = true)
      (unread : (a.futures f).result = none) (forced : (a.futures f).force = .ok (some read)) :
      Step w a { a with futures := Function.update a.futures f read }

def State.init : State where
  tasks := 0
  created := 0
  started := 0
  finished := 0
  nextId := 0
  nextFuture := 0
  futures _ := .alloc 0

def system : Transition.System State where
  init a := a = State.init
  step a a' := ∃ w, Step w a a'

theorem Step.nextFuture_le {w : ℕ} {a a' : State} (next : Step w a a') :
    a.nextFuture ≤ a'.nextFuture := by
  cases next with
  | createFuture => exact Nat.le_succ _
  | _ => exact le_rfl

section Derived

variable {w owner chan : ℕ} {a : State}

private theorem Step.send_to {batch : Multiset Tag} {rest : Multiset (Spot × Tag)}
    {futures : ℕ → LazyFuture} (held : a.tasks = place (.ready w) batch + rest)
    (converted : futures = convertAll batch a.futures) :
    Step w a { a with tasks := place (.sent owner chan) batch + rest, futures := futures } :=
  converted ▸ .send held

/-- A task is created and sent in one go. -/
theorem create_sent : Relation.ReflTransGen (Step w) a { a with
    tasks := place (.sent owner chan) {⟨a.nextId, none⟩} + a.tasks
    created := a.nextId ::ₘ a.created, nextId := a.nextId + 1 } := by
  refine .head .create (.single (Step.send_to ?_ ?_))
  · simp [place]
  · funext f
    simp [convertAll]

theorem createFuture_sent : Relation.ReflTransGen (Step w) a { a with
    tasks := place (.sent owner chan) {⟨a.nextId, some a.nextFuture⟩} + a.tasks
    created := a.nextId ::ₘ a.created, nextId := a.nextId + 1
    futures := Function.update a.futures a.nextFuture (.heap w)
    nextFuture := a.nextFuture + 1 } := by
  refine .head (.createFuture (.inr rfl)) (.single (Step.send_to ?_ ?_))
  · simp [place]
  · funext f
    by_cases same : f = a.nextFuture
    · subst same
      simp [convertAll, LazyFuture.convert, LazyFuture.heap]
    · simp [convertAll, same, Ne.symm same]

end Derived

/-! ## Conservation of tasks -/

def runningIds (tasks : Multiset (Spot × Tag)) : Multiset ℕ :=
  (tasks.filter fun t => t.1.isRunning).map fun t => t.2.id

def ids (tasks : Multiset (Spot × Tag)) : Multiset ℕ := tasks.map fun t => t.2.id

def waitingIds (tasks : Multiset (Spot × Tag)) : Multiset ℕ :=
  (tasks.filter fun t => ¬ t.1.isRunning).map fun t => t.2.id

section Counting

variable {tasks rest : Multiset (Spot × Tag)} {batch : Multiset Tag} {spot : Spot} {t : Tag} {w : ℕ}

@[simp] theorem runningIds_cons_running :
    runningIds ((.running w, t) ::ₘ tasks) = t.id ::ₘ runningIds tasks := by
  rw [runningIds, Multiset.filter_cons_of_pos _ (by rfl), Multiset.map_cons]
  rfl

theorem runningIds_cons (still : spot.isRunning = false) :
    runningIds ((spot, t) ::ₘ tasks) = runningIds tasks := by
  simp [runningIds, still]

theorem runningIds_place (still : spot.isRunning = false) :
    runningIds (place spot batch + rest) = runningIds rest := by
  simp [runningIds, place, Multiset.filter_map, still]

@[simp] theorem ids_cons : ids ((spot, t) ::ₘ tasks) = t.id ::ₘ ids tasks := by
  simp [ids]

@[simp] theorem ids_place : ids (place spot batch + rest) = batch.map Tag.id + ids rest := by
  simp [ids, place]

theorem ids_eq (tasks : Multiset (Spot × Tag)) : ids tasks =
    runningIds tasks + waitingIds tasks := by
  rw [ids, runningIds, waitingIds, ← Multiset.map_add, Multiset.filter_add_not]

end Counting

/-- No task is lost, none appears from nowhere, and none has two identities. -/
structure Conserved (a : State) : Prop where
  created : a.created = ids a.tasks + a.finished
  started : a.started = runningIds a.tasks + a.finished
  nodup : a.created.Nodup
  id_lt : ∀ id ∈ a.created, id < a.nextId

namespace Conserved

variable {a a' : State} {w : ℕ}

theorem init : Conserved State.init := by
  refine ⟨?_, ?_, ?_, ?_⟩ <;> simp [State.init, ids, runningIds]

private theorem fresh (cons : Conserved a) :
    (a.nextId ::ₘ a.created).Nodup ∧ ∀ id ∈ a.nextId ::ₘ a.created, id < a.nextId + 1 := by
  refine ⟨Multiset.nodup_cons.mpr ⟨fun member => (cons.id_lt _ member).ne rfl, cons.nodup⟩, ?_⟩
  intro id member
  rcases Multiset.mem_cons.mp member with rfl | member
  · exact Nat.lt_succ_self _
  · exact Nat.lt_succ_of_lt (cons.id_lt id member)

theorem step (cons : Conserved a) (next : Step w a a') : Conserved a' := by
  have created := cons.created
  have started := cons.started
  cases next with
  | create | createFuture _ =>
    refine ⟨?_, ?_, cons.fresh.1, cons.fresh.2⟩
    · simp [created]
    · rw [runningIds_cons rfl, started]
  | start held =>
    refine ⟨?_, ?_, cons.nodup, cons.id_lt⟩
    · simpa [held] using created
    · rw [held, runningIds_cons rfl] at started
      simp [started]
  | finish held _ | finishFuture held _ _ =>
    refine ⟨?_, ?_, cons.nodup, cons.id_lt⟩
    · simpa [held] using created
    · simpa [held] using started
  | send held | receive held =>
    refine ⟨?_, ?_, cons.nodup, cons.id_lt⟩
    · simpa [held] using created
    · rw [held, runningIds_place rfl] at started
      rw [runningIds_place rfl, started]
  | await _ | collect _ _ _ _ _ => exact ⟨created, started, cons.nodup, cons.id_lt⟩

end Conserved

/-- Every task that was created has started or waits somewhere, and never both. -/
theorem Conserved.created_eq {a : State} (cons : Conserved a) :
    a.created = a.started + waitingIds a.tasks := by
  rw [cons.created, cons.started, ids_eq, add_right_comm]

/-! ## Futures stay with their tasks -/

/-- What is known of the future of an unfinished task: it is not set, and without
a channel the task never left the worker that created it. -/
def AtHome (futures : ℕ → LazyFuture) (known : ℕ) (e : Spot × Tag) : Prop :=
  ∀ f, e.2.future = some f → f < known ∧ (futures f).passed = none ∧
    ((futures f).hasChannel = false →
      e.1 = .ready (futures f).creator ∨ e.1 = .running (futures f).creator)

def futuresOf (tasks : Multiset (Spot × Tag)) : Multiset ℕ := tasks.filterMap fun e => e.2.future

structure Kept (a : State) : Prop where
  /-- No two tasks have the same future. -/
  apart : (futuresOf a.tasks).Nodup
  home : ∀ e ∈ a.tasks, AtHome a.futures a.nextFuture e
  sound : ∀ f < a.nextFuture, (a.futures f).Sound

section Futures

variable {tasks rest : Multiset (Spot × Tag)} {batch : Multiset Tag} {spot : Spot} {t : Tag}
  {f : ℕ} {futures : ℕ → LazyFuture} {known : ℕ} {e : Spot × Tag}

theorem futuresOf_cons_none (plain : t.future = none) :
    futuresOf ((spot, t) ::ₘ tasks) = futuresOf tasks :=
  Multiset.filterMap_cons_none _ _ plain

theorem futuresOf_cons_some (future : t.future = some f) :
    futuresOf ((spot, t) ::ₘ tasks) = f ::ₘ futuresOf tasks :=
  Multiset.filterMap_cons_some _ _ _ future

theorem futuresOf_place : futuresOf (place spot batch + rest) =
    batch.filterMap Tag.future + futuresOf rest := by
  simp only [futuresOf, place, Multiset.filterMap_add, Multiset.filterMap_map]
  rfl

/-- Where a task is does not matter to which futures there are. -/
theorem futuresOf_move {other : Spot} :
    futuresOf ((spot, t) ::ₘ tasks) = futuresOf ((other, t) ::ₘ tasks) := by
  cases future : t.future with
  | none => rw [futuresOf_cons_none future, futuresOf_cons_none future]
  | some f => rw [futuresOf_cons_some future, futuresOf_cons_some future]

theorem mem_futuresOf (member : e ∈ tasks) (future : e.2.future = some f) : f ∈ futuresOf tasks :=
  (Multiset.mem_filterMap _ _).mpr ⟨e, member, future⟩

/-- Being at home depends on little of the future. -/
theorem AtHome.congr {futures' : ℕ → LazyFuture} {known' : ℕ} (home : AtHome futures known e)
    (more : known ≤ known')
    (same : ∀ f, e.2.future = some f → f < known → (futures' f).passed = (futures f).passed ∧
      ((futures' f).hasChannel = false → (futures f).hasChannel = false ∧
        (futures' f).creator = (futures f).creator)) : AtHome futures' known' e := by
  intro f future
  obtain ⟨inside, unset, spot⟩ := home f future
  obtain ⟨passed, channel⟩ := same f future inside
  refine ⟨inside.trans_le more, passed.trans unset, fun lazy => ?_⟩
  obtain ⟨before, creator⟩ := channel lazy
  rw [creator]
  exact spot before

theorem AtHome.start {w : ℕ} (home : AtHome futures known (.ready w, t)) :
    AtHome futures known (.running w, t) := by
  intro f future
  obtain ⟨inside, unset, spot⟩ := home f future
  refine ⟨inside, unset, fun lazy => ?_⟩
  rcases spot lazy with here | here
  · cases here
    exact .inr rfl
  · cases here

/-- A task that was sent may be anywhere, because its future has a channel. -/
theorem AtHome.received {owner chan : ℕ} (home : AtHome futures known (.sent owner chan, t)) :
    AtHome futures known (spot, t) := by
  intro f future
  obtain ⟨inside, unset, sent⟩ := home f future
  refine ⟨inside, unset, fun lazy => ?_⟩
  rcases sent lazy with here | here <;> cases here

end Futures

namespace Kept

variable {a a' : State} {w : ℕ} {rest : Multiset (Spot × Tag)} {f : ℕ} {content : LazyFuture}
  {batch : Multiset Tag}

theorem init : Kept State.init := by
  refine ⟨?_, ?_, ?_⟩ <;> simp [State.init, futuresOf]

/-- Changing a future that no task has. -/
private theorem update {tasks : Multiset (Spot × Tag)} {known : ℕ} {futures : ℕ → LazyFuture}
    (home : ∀ e ∈ tasks, AtHome futures known e) (unused : f ∉ futuresOf tasks) {known' : ℕ}
    (more : known ≤ known') :
    ∀ e ∈ tasks, AtHome (Function.update futures f content) known' e := by
  intro e member
  refine (home e member).congr more fun g future _ => ?_
  have other : g ≠ f := by
    rintro rfl
    exact unused (mem_futuresOf member future)
  rw [Function.update_of_ne other]
  exact ⟨rfl, fun lazy => ⟨lazy, rfl⟩⟩

/-- Changing a future in a way that tasks do not notice. -/
private theorem touch (kept : Kept a) (passed : content.passed = (a.futures f).passed)
    (channel : content.hasChannel = (a.futures f).hasChannel)
    (creator : content.creator = (a.futures f).creator) (sound : f < a.nextFuture → content.Sound) :
    Kept { a with futures := Function.update a.futures f content } := by
  refine ⟨kept.apart, fun e member => ?_, fun g inside => ?_⟩
  · refine (kept.home e member).congr le_rfl fun g _ _ => ?_
    by_cases same : g = f
    · subst same
      simp only [Function.update_self]
      exact ⟨passed, fun lazy => ⟨channel.symm.trans lazy, creator⟩⟩
    · simp [Function.update_of_ne same]
  · by_cases same : g = f
    · subst same
      simpa using sound inside
    · simpa [same] using kept.sound g inside

private theorem mem_of_batch {spot : Spot} {t : Tag} (held : a.tasks = place spot batch + rest)
    (inBatch : t ∈ batch) :
    (spot, t) ∈ a.tasks := by
  rw [held]
  exact Multiset.mem_add.mpr (.inl (Multiset.mem_map_of_mem _ inBatch))

private theorem createFuture (kept : Kept a) (new : content = .alloc w ∨ content = .heap w) :
    Kept { a with
      tasks := (.ready w, ⟨a.nextId, some a.nextFuture⟩) ::ₘ a.tasks
      created := a.nextId ::ₘ a.created, nextId := a.nextId + 1
      futures := Function.update a.futures a.nextFuture content
      nextFuture := a.nextFuture + 1 } := by
  have unused : a.nextFuture ∉ futuresOf a.tasks := by
    intro member
    obtain ⟨e, inTasks, future⟩ := (Multiset.mem_filterMap _ _).mp member
    exact (kept.home e inTasks _ future).1.ne rfl
  have sound : content.Sound := by
    rcases new with rfl | rfl
    · exact LazyFuture.alloc_sound w
    · exact LazyFuture.heap_sound w
  refine ⟨?_, ?_, ?_⟩
  · rw [futuresOf_cons_some rfl]
    exact Multiset.nodup_cons.mpr ⟨unused, kept.apart⟩
  · intro e member
    rcases Multiset.mem_cons.mp member with rfl | member
    · intro f future
      cases future
      simp only [Function.update_self]
      refine ⟨Nat.lt_succ_self _, ?_, ?_⟩
      · rcases new with rfl | rfl <;> rfl
      · intro _
        rcases new with rfl | rfl <;> exact .inl rfl
    · exact update kept.home unused (Nat.le_succ _) e member
  · intro f inside
    by_cases same : f = a.nextFuture
    · subst same
      simpa using sound
    · have before : f < a.nextFuture := by
        simp only at inside
        omega
      simpa [same] using kept.sound f before

private theorem send (kept : Kept a) {owner chan : ℕ}
    (held : a.tasks = place (.ready w) batch + rest) :
    Kept { a with
      tasks := place (.sent owner chan) batch + rest, futures := convertAll batch a.futures } := by
  have apart := kept.apart
  rw [held, futuresOf_place] at apart
  have home : ∀ e ∈ a.tasks, AtHome (convertAll batch a.futures) a.nextFuture e := by
    intro e member
    refine (kept.home e member).congr le_rfl fun f _ _ => ?_
    unfold convertAll
    split
    · simp
    · exact ⟨rfl, fun lazy => ⟨lazy, rfl⟩⟩
  refine ⟨?_, ?_, ?_⟩
  · rwa [futuresOf_place]
  · intro e member
    rcases Multiset.mem_add.mp member with moved | stays
    · -- a task that is sent has a future with a channel, so it may be anywhere
      obtain ⟨t, inBatch, rfl⟩ := Multiset.mem_map.mp moved
      intro f future
      obtain ⟨inside, unset, -⟩ := home _ (mem_of_batch held inBatch) f future
      have converted : f ∈ batch.filterMap Tag.future :=
        (Multiset.mem_filterMap _ _).mpr ⟨t, inBatch, future⟩
      exact ⟨inside, unset, fun lazy => by simp [convertAll, converted] at lazy⟩
    · exact home e (held ▸ Multiset.mem_add.mpr (.inr stays))
  · intro f inside
    simp only [convertAll]
    split
    · next member =>
      obtain ⟨t, inBatch, future⟩ := (Multiset.mem_filterMap _ _).mp member
      exact (kept.sound f inside).convert
        (kept.home _ (mem_of_batch held inBatch) f future).2.1
    · exact kept.sound f inside

private theorem receive (kept : Kept a) {chan : ℕ}
    (held : a.tasks = place (.sent w chan) batch + rest) :
    Kept { a with tasks := place (.ready w) batch + rest } := by
  have apart := kept.apart
  rw [held, futuresOf_place] at apart
  refine ⟨?_, ?_, kept.sound⟩
  · rwa [futuresOf_place]
  · intro e member
    rcases Multiset.mem_add.mp member with moved | stays
    · obtain ⟨t, inBatch, rfl⟩ := Multiset.mem_map.mp moved
      exact (kept.home (.sent w chan, t) (mem_of_batch held inBatch)).received
    · exact kept.home e (held ▸ Multiset.mem_add.mpr (.inr stays))

theorem step (kept : Kept a) (next : Step w a a') : Kept a' := by
  have apart := kept.apart
  cases next with
  | create =>
    refine ⟨?_, ?_, kept.sound⟩
    · rwa [futuresOf_cons_none rfl]
    · intro e member
      rcases Multiset.mem_cons.mp member with rfl | member
      · intro f future
        cases future
      · exact kept.home e member
  | createFuture new => exact kept.createFuture new
  | @start t rest held =>
    rw [held] at apart
    refine ⟨?_, ?_, kept.sound⟩
    · rwa [futuresOf_move]
    · intro e member
      rcases Multiset.mem_cons.mp member with rfl | member
      · exact (kept.home _ (by rw [held]; exact Multiset.mem_cons_self _ _)).start
      · exact kept.home e (held ▸ Multiset.mem_cons_of_mem member)
  | @finish t rest held plain =>
    rw [held, futuresOf_cons_none plain] at apart
    exact ⟨apart, fun e member => kept.home e (held ▸ Multiset.mem_cons_of_mem member), kept.sound⟩
  | @finishFuture t f value written rest held future wrote =>
    rw [held, futuresOf_cons_some future] at apart
    obtain ⟨unused, apart⟩ := Multiset.nodup_cons.mp apart
    obtain ⟨inside, unset, -⟩ :=
      kept.home _ (by rw [held]; exact Multiset.mem_cons_self _ _) f future
    refine ⟨apart, ?_, ?_⟩
    · exact update (fun e member => kept.home e (held ▸ Multiset.mem_cons_of_mem member)) unused
        le_rfl
    · intro g known
      by_cases same : g = f
      · subst same
        simpa using (((kept.sound g inside).write unset value).value wrote).1
      · simpa [same] using kept.sound g known
  | send held => exact kept.send held
  | receive held => exact kept.receive held
  | @await f own => exact kept.touch rfl rfl rfl fun inside => (kept.sound f inside).await
  | @collect f read known own asked unread forced =>
    obtain ⟨sound, -, -, passed, channel, creator, -⟩ :=
      ((kept.sound f known).force asked unread).value forced read rfl
    exact kept.touch passed channel creator fun _ => sound

/-- A future that nobody but the worker that created it has written to. -/
structure Untouched (f : ℕ) (a a' : State) : Prop where
  known : f < a'.nextFuture
  creator : (a'.futures f).creator = (a.futures f).creator
  cell : (a'.futures f).cell = (a.futures f).cell
  hasChannel : (a'.futures f).hasChannel = (a.futures f).hasChannel
  set : (a'.futures f).set = (a.futures f).set
  awaited : (a'.futures f).awaited = (a.futures f).awaited
  result : (a'.futures f).result = (a.futures f).result

theorem Untouched.same (more : a.nextFuture ≤ a'.nextFuture) (known : f < a.nextFuture)
    (same : a'.futures f = a.futures f) : Untouched f a a' := by
  refine ⟨known.trans_le more, ?_, ?_, ?_, ?_, ?_, ?_⟩ <;> rw [same]

/-- The union and the flags of a future are only written by the worker that created
it. -/
theorem untouched (kept : Kept a) (next : Step w a a') (known : f < a.nextFuture)
    (other : (a.futures f).creator ≠ w) : Untouched f a a' := by
  cases next with
  | create | start _ | finish _ _ | receive _ => exact .same le_rfl known rfl
  | createFuture _ =>
    have apart : f ≠ a.nextFuture := known.ne
    exact .same (Nat.le_succ _) known (Function.update_of_ne apart _ _)
  | @finishFuture t g value written rest held future wrote =>
    by_cases same : f = g
    · subst same
      obtain ⟨-, unset, spot⟩ :=
        kept.home _ (by rw [held]; exact Multiset.mem_cons_self _ _) f future
      obtain ⟨-, -, channel, creator, result, awaited, cell⟩ :=
        ((kept.sound f known).write unset value).value wrote
      -- Somebody else has the task, so the future has a channel.
      have converted : (a.futures f).hasChannel = true := by
        by_contra lazy
        rcases spot (by simpa using lazy) with here | here
        · cases here
        · cases here
          exact other rfl
      obtain ⟨cell, set⟩ := cell converted
      constructor <;> simpa only [Function.update_self]
    · exact .same le_rfl known (Function.update_of_ne same _ _)
  | @send owner chan batch rest held =>
    refine .same le_rfl known ?_
    simp only [convertAll]
    split
    · next member =>
      obtain ⟨t, inBatch, future⟩ := (Multiset.mem_filterMap _ _).mp member
      have member : (Spot.ready w, t) ∈ a.tasks := by
        rw [held]
        exact Multiset.mem_add.mpr (.inl (Multiset.mem_map_of_mem _ inBatch))
      obtain ⟨-, -, spot⟩ := kept.home _ member f future
      have converted : (a.futures f).hasChannel = true := by
        by_contra lazy
        rcases spot (by simpa using lazy) with here | here
        · cases here
          exact other rfl
        · cases here
      exact LazyFuture.convert_of_hasChannel converted
    · rfl
  | @await g own =>
    have apart : f ≠ g := fun same => other (same ▸ own)
    exact .same le_rfl known (Function.update_of_ne apart _ _)
  | @collect g read inside own asked unread forced =>
    have apart : f ≠ g := fun same => other (same ▸ own)
    exact .same le_rfl known (Function.update_of_ne apart _ _)

theorem untouched_run (kept : Kept a) (run : Relation.ReflTransGen (Step w) a a')
    (known : f < a.nextFuture) (other : (a.futures f).creator ≠ w) : Untouched f a a' := by
  -- `Kept` itself has to be carried along the run.
  suffices Kept a' ∧ Untouched f a a' from this.2
  induction run with
  | refl => exact ⟨kept, .same le_rfl known rfl⟩
  | tail _ next ih =>
    obtain ⟨keptThere, before⟩ := ih
    have step := keptThere.untouched next before.known (before.creator ▸ other)
    exact ⟨keptThere.step next, step.known, step.creator.trans before.creator,
      step.cell.trans before.cell, step.hasChannel.trans before.hasChannel,
      step.set.trans before.set, step.awaited.trans before.awaited,
      step.result.trans before.result⟩

/-- A future that has a channel keeps it. -/
theorem channel_kept (kept : Kept a) (next : Step w a a') (known : f < a.nextFuture)
    (channel : (a.futures f).hasChannel = true) : (a'.futures f).hasChannel = true := by
  cases next with
  | create | start _ | finish _ _ | receive _ => exact channel
  | createFuture _ =>
    have apart : f ≠ a.nextFuture := known.ne
    simpa [apart] using channel
  | @finishFuture t g value written rest held future wrote =>
    by_cases same : f = g
    · subst same
      obtain ⟨-, unset, -⟩ :=
        kept.home _ (by rw [held]; exact Multiset.mem_cons_self _ _) f future
      obtain ⟨-, -, still, -⟩ := ((kept.sound f known).write unset value).value wrote
      simpa [still] using channel
    · simpa [same] using channel
  | send _ =>
    simp only [convertAll]
    split
    · exact LazyFuture.convert_hasChannel
    · exact channel
  | @await g own =>
    by_cases same : f = g
    · subst same
      simpa using channel
    · simpa [same] using channel
  | @collect g read inside own asked unread forced =>
    by_cases same : f = g
    · subst same
      obtain ⟨-, -, -, -, still, -⟩ :=
        ((kept.sound f known).force asked unread).value forced read rfl
      simpa [still] using channel
    · simpa [same] using channel

theorem channel_kept_run (kept : Kept a) (run : Relation.ReflTransGen (Step w) a a')
    (known : f < a.nextFuture) (channel : (a.futures f).hasChannel = true) :
    (a'.futures f).hasChannel = true := by
  suffices Kept a' ∧ f < a'.nextFuture ∧ (a'.futures f).hasChannel = true from this.2.2
  induction run with
  | refl => exact ⟨kept, known, channel⟩
  | tail _ next ih =>
    obtain ⟨keptThere, knownThere, channelThere⟩ := ih
    exact ⟨keptThere.step next, knownThere.trans_le next.nextFuture_le,
      keptThere.channel_kept next knownThere channelThere⟩

end Kept

/-- A future that is not set has a task that will set it. -/
def Pledged (a : State) : Prop :=
  ∀ f < a.nextFuture, (a.futures f).passed = none → f ∈ futuresOf a.tasks

theorem Pledged.step {a a' : State} {w : ℕ} (pledged : Pledged a) (kept : Kept a)
    (next : Step w a a') : Pledged a' := by
  cases next with
  | create =>
    intro f known unset
    rw [futuresOf_cons_none rfl]
    exact pledged f known unset
  | createFuture new =>
    intro f known unset
    rw [futuresOf_cons_some rfl]
    by_cases same : f = a.nextFuture
    · exact same ▸ Multiset.mem_cons_self _ _
    · simp only [Function.update_of_ne same] at known unset
      exact Multiset.mem_cons_of_mem (pledged f (by omega) unset)
  | start held =>
    intro f known unset
    rw [futuresOf_move, ← held]
    exact pledged f known unset
  | finish held plain =>
    intro f known unset
    have mem := pledged f known unset
    rwa [held, futuresOf_cons_none plain] at mem
  | @finishFuture t g value written rest held future wrote =>
    intro f known unset
    by_cases same : f = g
    · subst same
      obtain ⟨-, fresh, -⟩ :=
        kept.home _ (by rw [held]; exact Multiset.mem_cons_self _ _) f future
      have passed := (((kept.sound f known).write fresh value).value wrote).2.1
      simp [passed] at unset
    · simp only [Function.update_of_ne same] at unset
      have mem := pledged f known unset
      rw [held, futuresOf_cons_some future] at mem
      exact (Multiset.mem_cons.mp mem).resolve_left same
  | @send owner chan batch rest held =>
    intro f known unset
    have mem := pledged f known (by
      simp only [convertAll] at unset
      split at unset <;> simpa using unset)
    rwa [held, futuresOf_place, ← futuresOf_place] at mem
  | receive held =>
    intro f known unset
    have mem := pledged f known unset
    rwa [held, futuresOf_place, ← futuresOf_place] at mem
  | @await g own =>
    intro f known unset
    refine pledged f known ?_
    by_cases same : f = g
    · subst same
      simpa using unset
    · simpa [same] using unset
  | @collect g read inside own asked unread forced =>
    intro f known unset
    refine pledged f known ?_
    by_cases same : f = g
    · subst same
      obtain ⟨-, -, -, passed, -⟩ :=
        ((kept.sound f known).force asked unread).value forced read rfl
      simpa [passed] using unset
    · simpa [same] using unset

theorem reachable_inv {a : State} (reached : system.Reachable a) : Conserved a ∧ Kept a := by
  refine @Transition.System.Reachable.invariant _ system (fun a => Conserved a ∧ Kept a)
    ?_ ?_ a reached
  · rintro a rfl
    exact ⟨.init, .init⟩
  · rintro a a' _ ⟨cons, kept⟩ ⟨w, next⟩
    exact ⟨cons.step next, kept.step next⟩

theorem reachable_pledged {a : State} (reached : system.Reachable a) : Pledged a := by
  refine @Transition.System.Reachable.invariant _ system Pledged ?_ ?_ a reached
  · rintro a rfl f known
    exact absurd known (Nat.not_lt_zero f)
  · rintro a a' before pledged ⟨w, next⟩
    exact pledged.step (reachable_inv before).2 next

end Tasking.Custody
