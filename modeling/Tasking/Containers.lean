import Tasking.Channel
import Tasking.Deque
import Tasking.Runtime

/-!
The containers of the runtime.

The model of the runtime has lists where the program has deques and channels.  Here every
change of such a list is a call of `deque.c` or `channel.c`: made on a deque or a channel
that stands for the list, it returns what the runtime goes on with, and leaves one that
stands for the new list.
-/
namespace Tasking.Runtime
open LinkedDeque Channels Fallible

/-! ## Deques -/

section Deques

variable {cfg : Config} {req : StealRequest} {x : Worker} {site : Site} {deque : List Task}
  {m : Heap} {dq : Deque} {dummy : ℕ} {op : Op} {taken rest : List Task}

def addresses (tasks : List Task) : List ℕ := tasks.map Task.addr

/-- The linked deque stands for the list, with no more tasks than it can count, and the task
objects have the parents of the tasks. -/
structure StandsFor (m : Heap) (dq : Deque) (dummy : ℕ) (deque : List Task) : Prop where
  is : IsDeque m dq dummy (addresses deque)
  few : deque.length < 2 ^ 32
  parents : ∀ t ∈ deque, (m.node t.addr).parent = some t.parent

/-- The call returns the tasks `taken`, as a list of their own, and leaves `rest`. -/
def CallGives (op : Op) (m : Heap) (dq : Deque) (dummy : ℕ) (taken rest : List Task) : Prop :=
  ∃ dq' m', op.exec dq m = .ok (op.report (addresses taken), dq', m') ∧
    StandsFor m' dq' dummy rest ∧ IsList m' (addresses taken)

theorem StandsFor.call (stands : StandsFor m dq dummy deque)
    (legal : op.Legal m dummy (addresses deque))
    (meant : op.apply (fun a => (m.node a).parent) (addresses deque) =
      (addresses taken, addresses rest))
    (few : rest.length < 2 ^ 32)
    (parents : ∀ t ∈ rest, (m.node t.addr).parent = some t.parent) :
    CallGives op m dq dummy taken rest := by
  have short : (addresses deque).length < 2 ^ 32 := by
    rw [addresses, List.length_map]
    exact stands.few
  obtain ⟨dq', m', ran, done⟩ := op.exec_meant stands.is short legal fun _ => rfl
  rw [meant] at ran done
  refine ⟨dq', m', ran, ⟨done.deque, few, fun t member => ?_⟩, done.list⟩
  rw [congrArg TaskBody.parent (done.relinks.bodies t.addr), parents t member]

theorem StandsFor.takes (stands : StandsFor m dq dummy deque)
    (legal : op.Legal m dummy (addresses deque))
    (meant : op.apply (fun a => (m.node a).parent) (addresses deque) =
      (addresses taken, addresses rest)) (fewer : rest.Sublist deque) :
    CallGives op m dq dummy taken rest :=
  stands.call legal meant (fewer.length_le.trans_lt stands.few)
    fun t member => stands.parents t (fewer.subset member)

/-- The call with which `RT_pop` takes a task; in `RT_force_future` it has to be a child. -/
def popCall (site : Site) (x : Worker) : Op :=
  match site with
  | .force _ => .popChild x.currentAddr
  | .schedule | .barrier => .pop

theorem dequePop_refines (stands : StandsFor m dq dummy x.deque) :
    CallGives (popCall site x) m dq dummy (dequePop site x).1.toList (dequePop site x).2 := by
  have parents := stands.parents
  refine stands.takes (by cases site <;> trivial) ?_ ?_
  all_goals unfold Runtime.dequePop
  · cases here : x.deque with
    | nil => cases site <;> rfl
    | cons t rest =>
      rw [here] at parents
      have parent := parents t List.mem_cons_self
      cases site with
      | force f =>
        simp only [popCall, addresses, List.map_cons, Op.apply, Op.applyAt, parent,
          Option.some.injEq]
        split <;> rfl
      | schedule => rfl
      | barrier => rfl
  · cases x.deque with
    | nil => exact .slnil
    | cons t rest =>
      dsimp only
      repeat' split
      all_goals simp

/-- The call with which `handle_steal_request` takes the tasks it is going to send. -/
def stealCall (cfg : Config) (req : StealRequest) : Op :=
  match cfg.steal with
  | .one => .steal
  | .half => .stealHalf false
  | .adaptive => if req.stealhalf then .stealHalf false else .steal

theorem stealCall_cases (cfg : Config) (req : StealRequest) (deque : List Task) :
    stealCall cfg req = .steal ∧ lootSize cfg req deque = 1 ∨
      stealCall cfg req = .stealHalf false ∧
        lootSize cfg req deque = max 1 (deque.length / 2) := by
  have half : (if deque.length / 2 = 0 then 1 else deque.length / 2) =
      max 1 (deque.length / 2) := by
    split <;> omega
  unfold stealCall lootSize
  cases cfg.steal with
  | one => exact .inl ⟨rfl, rfl⟩
  | half => exact .inr ⟨rfl, half⟩
  | adaptive =>
    cases req.stealhalf with
    | true => exact .inr ⟨rfl, half⟩
    | false => exact .inl ⟨rfl, rfl⟩

theorem takeLoot_refines (stands : StandsFor m dq dummy deque) :
    CallGives (stealCall cfg req) m dq dummy (takeLoot cfg req deque).1
      (takeLoot cfg req deque).2 := by
  rw [takeLoot]
  rcases stealCall_cases cfg req deque with ⟨call, size⟩ | ⟨call, size⟩
  all_goals
    rw [call, size]
    refine stands.takes trivial ?_ (List.take_sublist _ _)
    cases deque with
    | nil => rfl
    | cons t rest =>
      simp [addresses, Op.apply, Op.applyAt, splitLast, stealLast, List.map_drop, List.map_take]

theorem push_refines (stands : StandsFor m dq dummy deque) {t : Task}
    (legal : Op.Legal m dummy (addresses deque) (.push t.addr))
    (parent : (m.node t.addr).parent = some t.parent) (few : deque.length + 1 < 2 ^ 32) :
    CallGives (.push t.addr) m dq dummy [] (t :: deque) :=
  stands.call legal rfl few (List.forall_mem_cons.mpr ⟨parent, stands.parents⟩)

theorem prepend_refines (stands : StandsFor m dq dummy deque) {how : Prepend} {batch : List Task}
    (legal : Op.Legal m dummy (addresses deque) (.prepend how (addresses batch)))
    (parents : ∀ t ∈ batch, (m.node t.addr).parent = some t.parent)
    (few : (batch ++ deque).length < 2 ^ 32) :
    CallGives (.prepend how (addresses batch)) m dq dummy [] (batch ++ deque) := by
  refine stands.call legal ?_ few (List.forall_mem_append.mpr ⟨parents, stands.parents⟩)
  simp [addresses, Op.apply, Op.applyAt]

end Deques

/-! ## Channels -/

section Channels

variable {cfg : Config} {req : StealRequest} {n : Node} {net : Network} {i j : ℕ}
  {α : Type} {enc : α → Payload} {encReq : StealRequest → Payload} {encTask : Message → Payload}
  {c : Channel} {k : ℕ} {items : List α}

/-- The channel stands for the list; `enc` says what a message looks like in memory. -/
structure Queued (enc : α → Payload) (c : Channel) (k : ℕ) (items : List α) : Prop where
  holds : ∃ first, Holds c k first (items.map enc)
  sized : ∀ a, (enc a).length = c.itemsize.toNat

theorem Queued.send (queued : Queued enc c k items) (a : α) :
    if items.length < max k 1 then
      ∃ c', channelSend c (enc a) = .ok (true, c') ∧ Queued enc c' k (items ++ [a])
    else channelSend c (enc a) = .ok (false, c) := by
  obtain ⟨first, holds⟩ := queued.holds
  have sends := channelSend_refines holds (queued.sized a).le
  rw [SendsAs, List.length_map] at sends
  by_cases room : items.length < max k 1
  · rw [if_pos room] at sends ⊢
    obtain ⟨c', ran, holds', -, -, width⟩ := sends
    exact ⟨c', ran, ⟨first, by simpa using holds'⟩, by simpa [width] using queued.sized⟩
  · rwa [if_neg room] at sends ⊢

theorem Queued.receive (queued : Queued enc c k items) :
    ∃ c', channelReceive c c.itemsize.toNat = .ok (items.head?.map enc, c') ∧
      Queued enc c' k items.tail := by
  obtain ⟨first, holds⟩ := queued.holds
  have receives : ReceivesAs c k first (items.map enc) (channelReceive c c.itemsize.toNat) :=
    channelReceive_refines holds (by cases items <;> simp [queued.sized])
  cases items with
  | nil => exact ⟨c, receives, queued⟩
  | cons a rest =>
    obtain ⟨c', ran, holds', -, -, width⟩ := receives
    exact ⟨c', ran, ⟨first + 1, holds'⟩, by simpa [width] using queued.sized⟩

/-- `SEND_REQ` sends the request, or finds the channel full and changes nothing. -/
theorem sendReq_refines (queued : Queued encReq c cfg.requestCapacity (n.net.chanRequests i)) :
    Ensures (fun _ => channelSend c (encReq req) = .ok (false, c)) (sendReq cfg i req n) fun n' =>
      (∃ c', channelSend c (encReq req) = .ok (true, c') ∧
        Queued encReq c' cfg.requestCapacity (n'.net.chanRequests i)) ∨
      n' = n ∧ channelSend c (encReq req) = .ok (false, c) := by
  have sends := queued.send req
  rw [max_eq_left (Nat.mul_pos cfg.someSteal cfg.someWorker)] at sends
  unfold sendReq
  by_cases room : (n.net.chanRequests i).length < cfg.requestCapacity
  · rw [if_pos room] at sends ⊢
    exact .inl (by simpa [Network.pushRequest] using sends)
  · rw [if_neg room] at sends ⊢
    split
    · exact .inr ⟨rfl, sends⟩
    · exact sends

theorem dropRequest_refines (queued : Queued encReq c k (net.chanRequests i)) :
    ∃ c', channelReceive c c.itemsize.toNat = .ok ((net.chanRequests i).head?.map encReq, c') ∧
      Queued encReq c' k ((net.dropRequest i).chanRequests i) := by
  simpa [Network.dropRequest] using queued.receive

/-- A task channel has room for one message. -/
theorem putTask_sends {message : Message} (queued : Queued encTask c 1 (net.chanTasks i j).toList)
    (free : net.chanTasks i j = none) :
    ∃ c', channelSend c (encTask message) = .ok (true, c') ∧
      Queued encTask c' 1 ((net.putTask i j (some message)).chanTasks i j).toList := by
  have sends := queued.send message
  simpa [free, Network.putTask] using sends

/-- The message that finds the channel full is lost. -/
theorem sendTasks_refines {batch : List Task} {answers : ReqState}
    (queued : Queued encTask c 1 (net.chanTasks i j).toList) :
    ∃ c', channelSend c (encTask (.tasks batch answers)) =
        .ok ((net.chanTasks i j).isNone, c') ∧
      Queued encTask c' 1 ((net.sendTasks i j batch answers).chanTasks i j).toList := by
  have sends := queued.send (.tasks batch answers)
  unfold Network.sendTasks
  cases here : net.chanTasks i j with
  | none => exact putTask_sends queued here
  | some message =>
    rw [here] at queued sends
    exact ⟨c, sends, by simpa [here] using queued⟩

theorem putTask_receives (queued : Queued encTask c 1 (net.chanTasks i j).toList) :
    ∃ c', channelReceive c c.itemsize.toNat = .ok ((net.chanTasks i j).map encTask, c') ∧
      Queued encTask c' 1 ((net.putTask i j none).chanTasks i j).toList := by
  have receives := queued.receive
  cases here : net.chanTasks i j with
  | none => simpa [here, Network.putTask] using receives
  | some message => simpa [here, Network.putTask] using receives

end Channels

end Tasking.Runtime
