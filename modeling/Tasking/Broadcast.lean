import Mathlib.Data.List.Infix
import Mathlib.Data.List.Nodup
import Mathlib.Logic.Function.Basic
import Tasking.Transition

/-! A message handed down a tree.  A node that is told does its work once, and tells its
children one after the other; a child looks into its mailbox when it likes.  Every node is
told once, no mailbox is ever used twice, and the only way to come to a halt is that
everybody has told everybody. -/
namespace Tasking.Broadcast
open Transition Function

variable {ι : Type*} [DecidableEq ι]

/-- Who tells whom. -/
structure Tree (ι : Type*) where
  root : ι
  children : ι → List ι
  nodup : ∀ p, (children p).Nodup
  one_parent : ∀ {p q c}, c ∈ children p → c ∈ children q → p = q
  root_orphan : ∀ p, root ∉ children p

inductive Tree.Node (tree : Tree ι) : ι → Prop where
  | root : tree.Node tree.root
  | child {p c : ι} (above : tree.Node p) (below : c ∈ tree.children p) : tree.Node c

/-- How far a node is. -/
inductive Stage (ι : Type*) where
  | asleep
  | told
  /-- It has done its work, and has these children left to tell. -/
  | telling (left : List ι)

def Stage.left (children : List ι) : Stage ι → List ι
  | .asleep | .told => children
  | .telling left => left

structure State (ι : Type*) where
  stage : ι → Stage ι
  /-- There is a message in the node's mailbox. -/
  mail : ι → Bool
  /-- How often a node has done its work. -/
  runs : ι → ℕ

/-- The root has done its work, and everybody else is asleep. -/
def State.init (tree : Tree ι) : State ι where
  stage := update (fun _ => .asleep) tree.root (.telling (tree.children tree.root))
  mail _ := false
  runs := update (fun _ => 0) tree.root 1

inductive Step (tree : Tree ι) (a : State ι) : State ι → Prop where
  | receive {v : ι} (asleep : a.stage v = .asleep) (mail : a.mail v = true) :
      Step tree a { a with
        stage := update a.stage v .told, mail := update a.mail v false }
  | run {v : ι} (told : a.stage v = .told) :
      Step tree a { a with
        stage := update a.stage v (.telling (tree.children v))
        runs := update a.runs v (a.runs v + 1) }
  | tell {v c : ι} {left : List ι} (telling : a.stage v = .telling (c :: left)) :
      Step tree a { a with
        stage := update a.stage v (.telling left)
        mail := update a.mail c true }

def system (tree : Tree ι) : System (State ι) where
  init a := a = .init tree
  step := Step tree

/-- How often a node has done its work by then. -/
def Stage.runs : Stage ι → ℕ
  | .asleep | .told => 0
  | .telling _ => 1

structure Inv (tree : Tree ι) (a : State ι) : Prop where
  /-- The children are told in order. -/
  suffix : ∀ v, (a.stage v).left (tree.children v) <:+ tree.children v
  /-- A child that was not told sleeps. -/
  untold : ∀ {p c}, c ∈ (a.stage p).left (tree.children p) →
    a.stage c = .asleep ∧ a.mail c = false
  /-- One that was told and still sleeps has not looked. -/
  told : ∀ {p c}, c ∈ tree.children p → c ∉ (a.stage p).left (tree.children p) →
    (a.mail c = true ↔ a.stage c = .asleep)
  mail : ∀ {c}, a.mail c = true → ∃ p, c ∈ tree.children p
  root : ∃ left, a.stage tree.root = .telling left
  runs : ∀ v, a.runs v = (a.stage v).runs

section Steps

variable {tree : Tree ι} {a a' : State ι}

theorem Inv.init : Inv tree (.init tree) := by
  have left (p : ι) : ((State.init tree).stage p).left (tree.children p) = tree.children p := by
    by_cases same : p = tree.root
    · subst same
      simp [State.init, Stage.left]
    · simp [State.init, same, Stage.left]
  refine ⟨fun p => ?_, fun {p c} below => ?_, fun {p c} below apart => ?_, fun some => ?_,
    ⟨tree.children tree.root, ?_⟩, fun p => ?_⟩
  · rw [left]
  · rw [left] at below
    have other : c ≠ tree.root := fun same => tree.root_orphan p (same ▸ below)
    simp [State.init, other]
  · rw [left] at apart
    exact absurd below apart
  · cases some
  · simp [State.init]
  · by_cases same : p = tree.root
    · subst same
      simp [State.init, Stage.runs]
    · simp [State.init, same, Stage.runs]

omit [DecidableEq ι] in
/-- The mailbox of a child that is being told is empty, so that telling it does not fail. -/
theorem Inv.mailbox_free (inv : Inv tree a) {v c : ι} {left : List ι}
    (telling : a.stage v = .telling (c :: left)) : a.mail c = false :=
  (inv.untold (p := v) (by simp [telling, Stage.left])).2

omit [DecidableEq ι] in
/-- Only who sleeps has mail. -/
theorem Inv.mail_asleep (inv : Inv tree a) {c : ι} (some : a.mail c = true) :
    a.stage c = .asleep := by
  obtain ⟨p, below⟩ := inv.mail some
  by_cases left : c ∈ (a.stage p).left (tree.children p)
  · exact (inv.untold left).1
  · exact (inv.told below left).mp some

/-- A node that was told goes on by itself, and has as many children left to tell as before. -/
theorem Inv.goes (inv : Inv tree a) {v : ι} {stage : Stage ι} {mail : ι → Bool} {runs : ι → ℕ}
    (same : stage.left (tree.children v) = (a.stage v).left (tree.children v))
    (told : ∀ p, v ∉ (a.stage p).left (tree.children p)) (awake : stage ≠ .asleep)
    (empty : mail v = false) (others : ∀ c, c ≠ v → mail c = a.mail c)
    (root : (∃ left, a.stage v = .telling left) → ∃ left, stage = .telling left)
    (counts : ∀ p, runs p = (update a.stage v stage p).runs) :
    Inv tree ⟨update a.stage v stage, mail, runs⟩ := by
  have left (p : ι) : (update a.stage v stage p).left (tree.children p) =
      (a.stage p).left (tree.children p) := by
    by_cases here : p = v
    · subst here
      simpa using same
    · simp [here]
  refine ⟨fun p => ?_, fun {p c} below => ?_, fun {p c} below apart => ?_, fun {c} some => ?_, ?_,
    counts⟩
  · rw [left]
    exact inv.suffix p
  · rw [left] at below
    have other : c ≠ v := fun here => told p (here ▸ below)
    obtain ⟨asleep, unread⟩ := inv.untold below
    exact ⟨by simpa [other] using asleep, (others c other).trans unread⟩
  · rw [left] at apart
    by_cases here : c = v
    · subst here
      simp [empty, awake]
    · simpa [here, others c here] using inv.told below apart
  · have other : c ≠ v := by
      rintro rfl
      simp [empty] at some
    exact inv.mail ((others c other).symm.trans some)
  · by_cases here : tree.root = v
    · subst here
      simpa using root inv.root
    · simpa [here] using inv.root

theorem Inv.tell (inv : Inv tree a) {v c : ι} {rest : List ι}
    (telling : a.stage v = .telling (c :: rest)) : Inv tree { a with
      stage := update a.stage v (.telling rest)
      mail := update a.mail c true } := by
  have whole : (a.stage v).left (tree.children v) = c :: rest := by rw [telling]; rfl
  have suffix : c :: rest <:+ tree.children v := whole ▸ inv.suffix v
  have mine : c ∈ tree.children v := suffix.subset List.mem_cons_self
  obtain ⟨fresh, -⟩ := List.nodup_cons.mp (suffix.sublist.nodup (tree.nodup v))
  have left (p : ι) : (update a.stage v (.telling rest) p).left (tree.children p) =
      if p = v then rest else (a.stage p).left (tree.children p) := by
    by_cases here : p = v
    · subst here
      simp [Stage.left]
    · simp [here]
  -- Nobody else has this child, so nobody else has it left to tell.
  have shrinks {p d : ι} (below : d ∈ if p = v then rest else (a.stage p).left (tree.children p)) :
      d ∈ (a.stage p).left (tree.children p) ∧ d ≠ c := by
    by_cases here : p = v
    · subst here
      rw [if_pos rfl] at below
      exact ⟨whole ▸ List.mem_cons_of_mem c below, fun same => fresh (same ▸ below)⟩
    · rw [if_neg here] at below
      refine ⟨below, fun same => here (tree.one_parent ((inv.suffix p).subset below) ?_)⟩
      rwa [same]
  refine ⟨fun p => ?_, fun {p d} below => ?_, fun {p d} below apart => ?_, fun {d} some => ?_, ?_,
    fun p => ?_⟩
  · rw [left]
    split
    · next here => exact here ▸ (List.suffix_cons c rest).trans suffix
    · exact inv.suffix p
  · rw [left] at below
    obtain ⟨before, other⟩ := shrinks below
    obtain ⟨asleep, unread⟩ := inv.untold before
    have away : d ≠ v := by
      rintro rfl
      simp [telling] at asleep
    exact ⟨by simpa [away] using asleep, by simpa [other] using unread⟩
  · rw [left] at apart
    by_cases here : d = c
    · subst here
      have asleep := (inv.untold (p := v) (whole ▸ List.mem_cons_self)).1
      have away : d ≠ v := by
        rintro rfl
        simp [telling] at asleep
      simpa [away] using asleep
    · have before : d ∉ (a.stage p).left (tree.children p) := by
        intro owed
        by_cases parent : p = v
        · subst parent
          rw [if_pos rfl] at apart
          rw [whole] at owed
          exact (List.mem_cons.mp owed).elim here apart
        · exact apart (by rwa [if_neg parent])
      have known := inv.told below before
      by_cases self : d = v
      · subst self
        simpa [here, telling] using known
      · simpa [here, self] using known
  · by_cases here : d = c
    · exact ⟨v, here ▸ mine⟩
    · exact inv.mail (by simpa [here] using some)
  · by_cases here : tree.root = v
    · exact ⟨rest, by simp [here]⟩
    · simpa [here] using inv.root
  · have count := inv.runs p
    by_cases here : p = v
    · subst here
      simpa [telling, Stage.runs] using count
    · simpa [here] using count

theorem Inv.step (inv : Inv tree a) (next : Step tree a a') : Inv tree a' := by
  cases next with
  | @receive v asleep mail =>
    refine inv.goes (by rw [asleep]; rfl) (fun p below => ?_) (by simp) (by simp)
      (fun c other => by simp [other]) (fun wrong => ?_) fun p => ?_
    · exact absurd ((inv.untold below).2.symm.trans mail) Bool.false_ne_true
    · obtain ⟨left, wrong⟩ := wrong
      simp [asleep] at wrong
    · by_cases here : p = v
      · subst here
        simp [inv.runs, asleep, Stage.runs]
      · simp [inv.runs, here]
  | @run v told =>
    have unread : a.mail v = false := by
      by_contra some
      simp [inv.mail_asleep (by simpa using some)] at told
    refine inv.goes (by rw [told]; rfl) (fun p below => ?_) (by simp) unread (fun c other => rfl)
      (fun _ => ⟨_, rfl⟩) fun p => ?_
    · simp [(inv.untold below).1] at told
    · by_cases here : p = v
      · subst here
        simp [inv.runs, told, Stage.runs]
      · simp [inv.runs, here]
  | tell telling => exact inv.tell telling

theorem reachable_inv (reached : (system tree).Reachable a) : Inv tree a := by
  refine @System.Reachable.invariant _ (system tree) (Inv tree) ?_ ?_ a reached
  · rintro a rfl
    exact Inv.init
  · exact fun a a' _ inv next => inv.step next

omit [DecidableEq ι] in
theorem Inv.runs_le_one (inv : Inv tree a) (v : ι) : a.runs v ≤ 1 := by
  rw [inv.runs]
  cases a.stage v <;> simp [Stage.runs]

/-- Where nothing can happen any more, everybody has told all its children, for whoever sleeps
or was told can go on as soon as its parent has. -/
theorem Inv.halted (inv : Inv tree a) (halt : ∀ a', ¬ Step tree a a') {v : ι}
    (node : tree.Node v) : a.stage v = .telling [] := by
  have told {v : ι} {left : List ι} (telling : a.stage v = .telling left) : left = [] := by
    cases left with
    | nil => rfl
    | cons c rest => exact absurd (.tell telling) (halt _)
  induction node with
  | root =>
    obtain ⟨left, telling⟩ := inv.root
    rw [telling, told telling]
  | @child p c above below ih =>
    have known := inv.told below (by simp [ih, Stage.left])
    cases stage : a.stage c with
    | asleep => exact absurd (.receive stage (known.mpr stage)) (halt _)
    | told => exact absurd (.run stage) (halt _)
    | telling left => rw [told stage]

end Steps

end Tasking.Broadcast
