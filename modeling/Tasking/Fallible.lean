import Mathlib.Tactic.Common

/-! Computations that may stop: either because they are not enabled yet, or
because an assertion of the program they model fails.  `Ensures` is the
pre/postcondition rule for them: the computation may be disabled, may stop at a
fault in an explicitly `tolerated` set, and otherwise returns a value that
satisfies the postcondition.  With the empty set of tolerated faults it says
that no assertion fails.  `Returns` is the total version: the computation returns
such a value; a `Prompt` run that does not fail returns what it ensures.  `Agree`
compares a computation with a specification that may stop, too. -/
namespace Tasking.Fallible

/-- Why a computation does not return: it has to wait, and may be tried again, or an assertion
fails. -/
inductive Stop (φ : Type) where
  /-- The step waits for something and cannot be taken now. -/
  | disabled
  /-- An assertion failed. -/
  | fault (which : φ)
  deriving DecidableEq, Repr

/-- A computation that may stop. -/
abbrev Checked (φ α : Type) := Except (Stop φ) α

variable {φ α β : Type}

/-- `assert(p)`. -/
def check (p : Prop) [Decidable p] (which : φ) : Checked φ Unit :=
  if p then .ok () else .error (.fault which)

/-- Wait until `p` holds. -/
def await (p : Prop) [Decidable p] : Checked φ Unit :=
  if p then .ok () else .error .disabled

/-- The assertion that fails, if one does. -/
def failed : Checked φ α → Option φ
  | .error (.fault which) => some which
  | _ => none

theorem error_of_failed {run : Checked φ α} {which : φ} (found : failed run = some which) :
    run = .error (.fault which) := by
  cases run with
  | ok value => cases found
  | error stop =>
    cases stop with
    | disabled => cases found
    | fault other =>
      cases found
      rfl

/-- The computation is disabled, stops at a tolerated fault, or returns a value
satisfying `post`. -/
def Ensures (tolerated : φ → Prop) (run : Checked φ α) (post : α → Prop) : Prop :=
  match run with
  | .ok value => post value
  | .error .disabled => True
  | .error (.fault which) => tolerated which

variable {tolerated : φ → Prop} {post : α → Prop} {run : Checked φ α} {p : Prop} [Decidable p]
  {which : φ}

@[simp] theorem ensures_ok {value : α} : Ensures tolerated (.ok value : Checked φ α) post ↔
    post value := Iff.rfl

@[simp] theorem ensures_pure {value : α} : Ensures tolerated (pure value : Checked φ α) post ↔
    post value := Iff.rfl

@[simp] theorem ensures_disabled : Ensures tolerated (.error .disabled : Checked φ α) post :=
  trivial

@[simp] theorem ensures_fault :
    Ensures tolerated (.error (.fault which) : Checked φ α) post ↔ tolerated which := Iff.rfl

theorem ok_bind {value : α} {next : α → Checked φ β} :
    ((.ok value : Checked φ α) >>= next) = next value := rfl

/-- Sequencing: the continuation is ensured from whatever the first part ensures. -/
@[simp] theorem ensures_bind {next : α → Checked φ β} {post : β → Prop} :
    Ensures tolerated (run >>= next) post ↔
      Ensures tolerated run (fun value => Ensures tolerated (next value) post) := by
  cases run with
  | ok value => exact Iff.rfl
  | error stop => cases stop <;> exact Iff.rfl

@[simp] theorem ensures_check {post : Unit → Prop} :
    Ensures tolerated (check p which) post ↔ (p → post ()) ∧ (¬ p → tolerated which) := by
  unfold check
  split <;> simp_all

@[simp] theorem ensures_await {post : Unit → Prop} :
    Ensures tolerated (await p : Checked φ Unit) post ↔ (p → post ()) := by
  unfold await
  split <;> simp_all

@[simp] theorem ensures_ite {other : Checked φ α} :
    Ensures tolerated (if p then run else other) post ↔
      (p → Ensures tolerated run post) ∧ (¬ p → Ensures tolerated other post) := by
  split <;> simp_all

theorem Ensures.any : Ensures (fun _ => True) run fun _ => True := by
  match run with
  | .ok _ => trivial
  | .error .disabled => trivial
  | .error (.fault _) => trivial

/-- Only the value of a returning run is of interest. -/
theorem ensures_answer (held : ∀ value, run = .ok value → post value) :
    Ensures (fun _ => True) run post := by
  match run, held with
  | .ok value, held => exact held value rfl
  | .error .disabled, _ => trivial
  | .error (.fault _), _ => trivial

theorem Ensures.mono {weaker : α → Prop} (held : Ensures tolerated run post)
    (weaken : ∀ value, post value → weaker value) : Ensures tolerated run weaker := by
  match run, held with
  | .ok value, held => exact weaken value held
  | .error .disabled, _ => trivial
  | .error (.fault _), held => exact held

theorem Ensures.weaken {more : φ → Prop} (held : Ensures tolerated run post)
    (weaken : ∀ which, tolerated which → more which) : Ensures more run post := by
  match run, held with
  | .ok _, held => exact held
  | .error .disabled, _ => trivial
  | .error (.fault which), held => exact weaken which held

theorem Ensures.value {value : α} (held : Ensures tolerated run post) (ran : run = .ok value) :
    post value := by
  subst ran
  exact held

theorem Ensures.tolerates (held : Ensures tolerated run post)
    (ran : run = .error (.fault which)) : tolerated which := by
  subst ran
  exact held

/-- The computation returns a value satisfying `post`. -/
def Returns (run : Checked φ α) (post : α → Prop) : Prop :=
  match run with
  | .ok value => post value
  | .error _ => False

@[simp] theorem returns_ok {value : α} : Returns (.ok value : Checked φ α) post ↔ post value :=
  Iff.rfl

@[simp] theorem returns_pure {value : α} : Returns (pure value : Checked φ α) post ↔ post value :=
  Iff.rfl

@[simp] theorem returns_bind {next : α → Checked φ β} {post : β → Prop} :
    Returns (run >>= next) post ↔ Returns run fun value => Returns (next value) post := by
  cases run <;> exact Iff.rfl

@[simp] theorem returns_check {post : Unit → Prop} :
    Returns (check p which) post ↔ p ∧ post () := by
  unfold check
  split <;> simp_all [Returns]

@[simp] theorem returns_await {post : Unit → Prop} :
    Returns (await p : Checked φ Unit) post ↔ p ∧ post () := by
  unfold await
  split <;> simp_all [Returns]

theorem Returns.mono {weaker : α → Prop} (held : Returns run post)
    (weaken : ∀ value, post value → weaker value) : Returns run weaker := by
  cases run with
  | ok value => exact weaken value held
  | error stop => exact held

theorem Returns.exists_ok (held : Returns run post) : ∃ value, run = .ok value ∧ post value := by
  cases run with
  | ok value => exact ⟨value, rfl, held⟩
  | error stop => exact held.elim

theorem returns_of_ok {value : α} (ran : run = .ok value) : Returns run (· = value) := by
  subst ran
  exact rfl

/-- The computation does not wait for anything. -/
def Prompt (run : Checked φ α) : Prop := run ≠ .error .disabled

@[simp] theorem prompt_ok {value : α} : Prompt (.ok value : Checked φ α) := by simp [Prompt]

@[simp] theorem prompt_pure {value : α} : Prompt (pure value : Checked φ α) := prompt_ok

@[simp] theorem prompt_fault : Prompt (.error (.fault which) : Checked φ α) := by simp [Prompt]

@[simp] theorem prompt_check : Prompt (check p which) := by
  unfold check
  split <;> simp

theorem Prompt.bind {next : α → Checked φ β} (first : Prompt run)
    (rest : ∀ value, Prompt (next value)) : Prompt (run >>= next) := by
  cases run with
  | ok value => exact rest value
  | error stop =>
    intro stopped
    cases stop with
    | disabled => exact first rfl
    | fault which => cases stopped

theorem Prompt.ite {other : Checked φ α} (yes : Prompt run) (no : Prompt other) :
    Prompt (if p then run else other) := by
  split
  · exact yes
  · exact no

/-- A run that neither fails nor waits returns. -/
theorem Ensures.returns (held : Ensures tolerated run post) (prompt : Prompt run)
    (sound : ∀ which, run ≠ .error (.fault which)) : Returns run post := by
  cases run with
  | ok value => exact held
  | error stop =>
    cases stop with
    | disabled => exact prompt rfl
    | fault which => exact sound which rfl

/-- The computation stops at a tolerated fault, or it does as the specification:
both stop in the same way, or both return and the values are related. -/
def Agree (tolerated : φ → Prop) (related : α → β → Prop) (run : Checked φ α)
    (spec : Checked φ β) : Prop :=
  match run, spec with
  | .ok value, .ok value' => related value value'
  | .ok _, .error _ => False
  | .error stop, .ok _ => ∃ which, stop = .fault which ∧ tolerated which
  | .error stop, .error stop' => stop = stop' ∨ ∃ which, stop = .fault which ∧ tolerated which

section Agreement

variable {related : α → β → Prop} {spec : Checked φ β}

@[simp] theorem agree_ok {value : α} {value' : β} :
    Agree tolerated related (.ok value : Checked φ α) (.ok value') ↔ related value value' :=
  Iff.rfl

@[simp] theorem agree_pure {value : α} {value' : β} :
    Agree tolerated related (pure value : Checked φ α) (pure value') ↔ related value value' :=
  Iff.rfl

theorem agree_fault (held : tolerated which) :
    Agree tolerated related (.error (.fault which) : Checked φ α) spec := by
  cases spec with
  | ok value => exact ⟨which, rfl, held⟩
  | error stop => exact Or.inr ⟨which, rfl, held⟩

theorem agree_same {stop : Stop φ} :
    Agree tolerated related (.error stop : Checked φ α) (.error stop) := Or.inl rfl

/-- Sequencing: the continuations agree from related values. -/
theorem Agree.bind {γ δ : Type} {later : γ → δ → Prop} {next : α → Checked φ γ}
    {next' : β → Checked φ δ} (agree : Agree tolerated related run spec)
    (agreeNext : ∀ value value', related value value' →
      Agree tolerated later (next value) (next' value')) :
    Agree tolerated later (run >>= next) (spec >>= next') := by
  match run, spec, agree with
  | .ok value, .ok value', agree => exact agreeNext value value' agree
  | .error stop, .ok value', agree =>
    obtain ⟨which, rfl, held⟩ := agree
    exact agree_fault held
  | .error stop, .error stop', agree => exact agree

theorem agree_check {q : Prop} [Decidable q] (same : p ↔ q) :
    Agree tolerated (fun _ _ => p) (check p which) (check q which) := by
  unfold check
  by_cases held : p
  · rw [if_pos held, if_pos (same.mp held)]
    exact held
  · rw [if_neg held, if_neg (fun other => held (same.mpr other))]
    exact agree_same

/-- An assertion the specification does not have. -/
theorem agree_guard {next : Unit → Checked φ α} (held : p → Agree tolerated related (next ()) spec)
    (fails : ¬ p → tolerated which) : Agree tolerated related (check p which >>= next) spec := by
  unfold check
  split
  · next holds => exact held holds
  · next broken => exact agree_fault (fails broken)

theorem Agree.mono {weaker : α → β → Prop} (agree : Agree tolerated related run spec)
    (weaken : ∀ value value', related value value' → weaker value value') :
    Agree tolerated weaker run spec := by
  match run, spec, agree with
  | .ok value, .ok value', agree => exact weaken value value' agree
  | .error stop, .ok value', agree => exact agree
  | .error stop, .error stop', agree => exact agree

/-- Other faults may be tolerated, if they include these. -/
theorem Agree.weaken {more : φ → Prop} (agree : Agree tolerated related run spec)
    (weaken : ∀ which, tolerated which → more which) : Agree more related run spec := by
  match run, spec, agree with
  | .ok value, .ok value', agree => exact agree
  | .error stop, .ok value', agree =>
    obtain ⟨which, rfl, held⟩ := agree
    exact agree_fault (weaken which held)
  | .error stop, .error stop', agree =>
    refine agree.imp id ?_
    rintro ⟨which, same, held⟩
    exact ⟨which, same, weaken which held⟩

/-- What a returning run has returned, the specification returns as well. -/
theorem Agree.value {value : α} (agree : Agree tolerated related run spec) (ran : run = .ok value) :
    ∃ value', spec = .ok value' ∧ related value value' := by
  subst ran
  cases spec with
  | ok value' => exact ⟨value', rfl, agree⟩
  | error stop => exact agree.elim

/-- Where the specification returns and nothing is tolerated, the run returns. -/
theorem Agree.returns {value' : β} (agree : Agree (fun _ => False) related run spec)
    (specified : spec = .ok value') : Returns run fun value => related value value' := by
  subst specified
  cases run with
  | ok value => exact agree
  | error stop =>
    obtain ⟨which, -, none⟩ := agree
    exact none.elim

end Agreement

end Tasking.Fallible
