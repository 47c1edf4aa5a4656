import Tasking.Faults
import Tasking.RuntimeState

/-! Lazy futures (`future_internal.h`): the operations on one future, and the
life of a future they make up.  `LazyFuture.Sound` lists the forms a future can
take; each operation is shown to lead from one form to the next, and never to
read the union as something it is not. -/
namespace Tasking.Runtime
open Fallible

/-- `FUTURE_CONVERT`. -/
def LazyFuture.convert (f : LazyFuture) : LazyFuture :=
  if f.hasChannel then f
  else { f with cell := .chan, slot := none, hasChannel := true, allocs := f.allocs + 1 }

/-- The future `split_loop` gives to the new task: it has a channel from the start. -/
def LazyFuture.heap (creator : ℕ) : LazyFuture :=
  { LazyFuture.alloc creator with cell := .chan, hasChannel := true, allocs := 1 }

/-- `FUTURE_SET`. -/
def LazyFuture.write (f : LazyFuture) (value : Value) : Checked LazyFuture :=
  if f.hasChannel then do
    check (f.cell ≠ .null) .futureSetNull
    check (f.cell = .chan) .futureUnion
    check (f.frees = 0) .futureFreed
    return { f with slot := f.slot <|> some value, passed := some value }
  else return { f with cell := .buf value, set := true, passed := some value }

/-- `READY`: `none` if the future is not ready, otherwise what came through the
channel, if anything did. -/
def LazyFuture.receive (f : LazyFuture) : Checked (Option (Option Value × LazyFuture)) :=
  if f.hasChannel then do
    check (f.cell = .chan) .futureUnion
    check (f.frees = 0) .futureFreed
    match f.slot with
    | some value => return some (some value, { f with slot := none })
    | none => return if f.set then some (none, f) else none
  else return if f.set then some (none, f) else none

/-- The code at `RT_force_future_return`, with what `READY` received in `data`. -/
def LazyFuture.collect (f : LazyFuture) (data : Option Value) : Checked LazyFuture :=
  if f.hasChannel then do
    check (f.cell ≠ .null) .futureChanNull
    check (f.cell = .chan) .futureUnion
    return { f with frees := f.frees + 1, result := data }
  else do
    check f.set .futureNotSet
    match f.cell with
    | .buf value => return { f with result := some value }
    | _ => .error (.fault .futureUnion)

/-- `READY`, and the return from `RT_force_future` if the future is ready. -/
def LazyFuture.force (f : LazyFuture) : Checked (Option LazyFuture) := do
  match ← f.receive with
  | none => return none
  | some (data, g) =>
    let g ← g.collect data
    return some g

/-- The forms of a future: nothing has happened; its result is in the buffer, not
yet read or read; its channel is empty, holds the result, or has delivered it
and is freed. -/
inductive LazyFuture.Sound : LazyFuture → Prop where
  | fresh {creator : ℕ} {awaited : Bool} :
      Sound ⟨creator, .null, false, false, none, 0, 0, none, awaited, none⟩
  | stored {creator : ℕ} {awaited : Bool} {value : Value} :
      Sound ⟨creator, .buf value, false, true, none, 0, 0, some value, awaited, none⟩
  | read {creator : ℕ} {value : Value} :
      Sound ⟨creator, .buf value, false, true, none, 0, 0, some value, true, some value⟩
  | converted {creator : ℕ} {awaited : Bool} :
      Sound ⟨creator, .chan, true, false, none, 1, 0, none, awaited, none⟩
  | sent {creator : ℕ} {awaited : Bool} {value : Value} :
      Sound ⟨creator, .chan, true, false, some value, 1, 0, some value, awaited, none⟩
  | delivered {creator : ℕ} {value : Value} :
      Sound ⟨creator, .chan, true, false, none, 1, 1, some value, true, some value⟩

namespace LazyFuture

variable {f : LazyFuture}

theorem alloc_sound (creator : ℕ) : (alloc creator).Sound := .fresh

theorem heap_sound (creator : ℕ) : (heap creator).Sound := .converted

theorem Sound.await (sound : f.Sound) : { f with awaited := true }.Sound := by
  cases sound <;> constructor

/-- A future that nobody awaits has not been read. -/
theorem Sound.unread (sound : f.Sound) (asked : f.awaited = false) : f.result = none := by
  cases sound with
  | read | delivered => cases asked
  | fresh | stored | converted | sent => rfl

@[simp] theorem convert_creator : f.convert.creator = f.creator := by
  unfold convert
  split <;> rfl

@[simp] theorem convert_passed : f.convert.passed = f.passed := by
  unfold convert
  split <;> rfl

@[simp] theorem convert_result : f.convert.result = f.result := by
  unfold convert
  split <;> rfl

@[simp] theorem convert_awaited : f.convert.awaited = f.awaited := by
  unfold convert
  split <;> rfl

@[simp] theorem convert_hasChannel : f.convert.hasChannel = true := by
  unfold convert
  split <;> simp_all

theorem convert_of_hasChannel (channel : f.hasChannel = true) : f.convert = f := by
  simp [convert, channel]

/-- Converting is safe as long as the task has not run: nothing has been written to the union
that the pointer replaces. -/
theorem Sound.convert (sound : f.Sound) (unset : f.passed = none) : f.convert.Sound := by
  cases sound with
  | fresh => exact .converted
  | converted => exact .converted
  | stored | read | sent | delivered => cases unset

/-- What `FUTURE_SET` does to a future that was not set before. -/
theorem Sound.write (sound : f.Sound) (unset : f.passed = none) (value : Value) :
    Ensures (fun _ => False) (f.write value) fun g => g.Sound ∧ g.passed = some value ∧
      g.hasChannel = f.hasChannel ∧ g.creator = f.creator ∧ g.result = f.result ∧
      g.awaited = f.awaited ∧ (f.hasChannel = true → g.cell = f.cell ∧ g.set = f.set) := by
  cases sound with
  | fresh => exact ⟨.stored, rfl, rfl, rfl, rfl, rfl, by simp⟩
  | converted =>
    simp only [LazyFuture.write, check, ↓reduceIte, ne_eq, reduceCtorEq, not_false_eq_true]
    exact ⟨.sent, rfl, rfl, rfl, rfl, rfl, by simp⟩
  | stored | read | sent | delivered => cases unset

/-- Forcing a future that was not forced before returns what `FUTURE_SET` was
given, or finds the future not ready. -/
theorem Sound.force (sound : f.Sound) (asked : f.awaited = true) (fresh : f.result = none) :
    Ensures (fun _ => False) f.force fun out => ∀ g ∈ out, g.Sound ∧ f.passed.isSome ∧
      g.result = f.passed ∧ g.passed = f.passed ∧ g.hasChannel = f.hasChannel ∧
      g.creator = f.creator ∧ g.awaited = f.awaited ∧ g.cell = f.cell ∧ g.set = f.set := by
  cases sound with
  | fresh => simp [LazyFuture.force, receive]
  | converted =>
    simp [LazyFuture.force, receive, check]
  | stored =>
    cases asked
    simp [LazyFuture.force, receive, collect, check]
    exact .read
  | sent =>
    cases asked
    simp [LazyFuture.force, receive, collect, check]
    exact .delivered
  | read | delivered => cases fresh

/-- A future that was set is ready. -/
theorem Sound.force_set (sound : f.Sound) (asked : f.awaited = true) (fresh : f.result = none)
    {value : Value} (passed : f.passed = some value) :
    ∃ g, f.force = .ok (some g) ∧ g.result = some value := by
  cases sound with
  | fresh | converted => cases passed
  | stored | sent =>
    cases passed
    exact ⟨_, rfl, rfl⟩
  | read | delivered => cases fresh

end LazyFuture
end Tasking.Runtime
