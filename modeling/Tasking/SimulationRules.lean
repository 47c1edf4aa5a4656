import Tasking.Handling

/-! What has to be shown of a step, and the rules that show it for the moves many
program points have in common: going on to another program point, and the
outcomes of handling a request. -/
namespace Tasking.Runtime
open Fallible Family TokenProtocol Custody WorkerTree Function Relation

/-- What may be assumed of a worker about to move: the invariants of both protocols, for the
worker in its context, and what it knows by itself. -/
structure Pre (cfg : Config) (ctx : Context) (w : ℕ) (n : Node) : Prop where
  worker : w < cfg.numWorkers
  tokens : TokenProtocol.Inv cfg.numWorkers cfg.maxSteal (n.ring cfg ctx w)
  conserved : Conserved (n.custody cfg ctx w)
  kept : Kept (n.custody cfg ctx w)
  loc : LocalOk cfg w n.self.loc
  net : NetOk cfg n.net
  depends : Depends cfg w n.self.loc n.net

/-- The move is one the protocols know, and keeps everything else in order. -/
structure Simulated (cfg : Config) (ctx : Context) (w : ℕ) (n n' : Node) : Prop where
  tokens : ReflTransGen (TokenProtocol.Step cfg.numWorkers cfg.maxSteal)
    (n.ring cfg ctx w) (n'.ring cfg ctx w)
  custody : ReflTransGen (Custody.Step w) (n.custody cfg ctx w) (n'.custody cfg ctx w)
  loc : LocalOk cfg w n'.self.loc
  net : NetOk cfg n'.net
  depends : Depends cfg w n'.self.loc n'.net
  /-- Nobody else's messages disappear. -/
  slots : ∀ v, v ≠ w → ∀ c, (n.net.chanTasks v c).isSome → (n'.net.chanTasks v c).isSome

/-- The master issues `RT_EXIT`. -/
structure Exits (w : ℕ) (n n' : Node) : Prop where
  master : w = 0
  here : n.self.pc = .user
  root : n.self.frames = []
  idle : ∀ side, n.self.flag side = true
  quiescent : n.self.quiescent = true
  after : n' = { n with net := { n.net with exiting := true } }.goto .exitLeft

/-! ## Local states -/

/-- Program points outside the idle loops, and not on the way out of one. -/
def Pc.plain : Pc → Bool
  | .barrierExit | .recvReq (.declineAll _) | .recvReqFor (.declineAll _) _
  | .handle (.declineAll _) _ => false
  | pc => !pc.isIdle && !pc.leaving

/-- The worker is outside the idle loops, and what its program point asks for
holds. -/
structure Local.Plain (cfg : Config) (ID : ℕ) (l : Local) : Prop where
  plain : l.pc.plain = true
  nothing : l.pc.foundNothing = true → l.deque = []
  scan : l.pc.scanOk cfg ID l.flag
  index : ∀ site i, l.pc = .recvTask site i → i < cfg.maxSteal

/-- Program points outside the idle loops that ask for nothing. -/
def Pc.easy : Pc → Bool
  | .recvReqFor _ _ | .recvTask _ _ => false
  | pc => pc.plain && !pc.foundNothing

section LocalMoves

variable {cfg : Config} {ID : ℕ} {l : Local} {pc : Pc}

theorem Local.Plain.easy (easy : l.pc.easy = true) : l.Plain cfg ID := by
  cases here : l.pc with
  | recvReqFor k scan =>
    rw [here] at easy
    cases easy
  | recvTask site i =>
    rw [here] at easy
    cases easy
  | _ =>
    rw [here] at easy
    have both : l.pc.plain = true ∧ l.pc.foundNothing = false := by
      rw [here]
      simpa only [Pc.easy, Bool.and_eq_true, Bool.not_eq_true'] using easy
    refine ⟨both.1, fun found => ?_, by simp [here, Pc.scanOk], by simp [here]⟩
    rw [found] at both
    cases both.2

theorem Pc.plain_facts (plain : pc.plain = true) :
    pc.isIdle = false ∧ pc.leaving = false ∧ pc.declining ∧ pc ≠ .barrierExit := by
  unfold Pc.plain at plain
  split at plain <;> try cases plain
  next notExit notRecv notFor notHandle =>
    simp only [Bool.and_eq_true, Bool.not_eq_true'] at plain
    refine ⟨plain.1, plain.2, ?_, notExit⟩
    unfold Pc.declining
    split
    · exact absurd rfl (notRecv _)
    · exact absurd rfl (notFor _ _)
    · exact absurd rfl (notHandle _ _)
    · trivial

theorem Local.Plain.ok (plain : l.Plain cfg ID) (site : SiteOk ID l.rets l.pc.site)
    (stack : StackOk ID l.rets) (awake : l.waiting = false) (inWait : l.inWait = false)
    (master : l.quiescent = true → ID = 0)
    (empty : l.quiescent = true → 2 ≤ cfg.numWorkers →
      l.deque = [] ∧ l.rets = [] ∧ l.pc.held = none)
    (unfinished : l.finished = false) (awaiting : l.awaiting.Nodup) : LocalOk cfg ID l := by
  obtain ⟨busy, stays, declining, notExit⟩ := Pc.plain_facts plain.plain
  refine ⟨site, stack, declining, ?_, plain.nothing, plain.scan, fun _ => busy, ?_, ?_, master,
    empty, fun leaves => absurd leaves notExit, stays, unfinished, awaiting, plain.index⟩
  · intro idle
    rw [busy] at idle
    cases idle
  · intro waiting
    rw [awake] at waiting
    cases waiting
  · intro waiting
    rw [inWait] at waiting
    cases waiting

theorem awaiting_goto (futures : Site.futures pc.site = Site.futures l.pc.site) :
    { l with pc := pc }.awaiting = l.awaiting := by
  simp only [Local.awaiting, futures]

theorem LocalOk.not_inWait (ok : LocalOk cfg ID l) (awake : l.waiting = false) :
    l.inWait = false := by
  by_contra inWait
  rw [(ok.in_wait (by simpa using inWait)).1] at awake
  cases awake

/-- Going on outside the idle loops, with the deque and the flags changed at
most. -/
theorem LocalOk.goPlain (ok : LocalOk cfg ID l) {deque : List Task} {flag : Side → Bool}
    (plain : { l with pc := pc, deque := deque, flag := flag }.Plain cfg ID)
    (site : SiteOk ID l.rets pc.site) (futures : Site.futures pc.site = Site.futures l.pc.site)
    (awake : l.waiting = false)
    (empty : l.quiescent = true → 2 ≤ cfg.numWorkers → deque = [] ∧ pc.held = none) :
    LocalOk cfg ID { l with pc := pc, deque := deque, flag := flag } := by
  refine plain.ok site ok.stack awake (ok.not_inWait awake) ok.quiescent_master ?_ ok.unfinished ?_
  · intro quiescent several
    obtain ⟨dequeEmpty, held⟩ := empty quiescent several
    exact ⟨dequeEmpty, (ok.quiescent_empty quiescent several).2.1, held⟩
  · have same : Local.awaiting { l with pc := pc, deque := deque, flag := flag } = l.awaiting := by
      simp only [Local.awaiting, futures]
    rw [same]
    exact ok.awaiting

theorem LocalOk.goIdle (ok : LocalOk cfg ID l) (was : l.pc.isIdle = true) (idle : pc.isIdle = true)
    (site : pc.site = l.pc.site) (scan : pc.scanOk cfg ID l.flag)
    (waits : l.waiting = true → cfg.backoff ≠ .off → pc.mayWait = true)
    (inWait : l.inWait = true → pc = .recvTask .schedule 0)
    (index : ∀ site i, pc = .recvTask site i → i < cfg.maxSteal) :
    LocalOk cfg ID { l with pc := pc } := by
  have empty := ok.idle_empty was
  refine ⟨?_, ok.stack, ?_, fun _ => empty, fun _ => empty, scan, ?_, waits, ?_,
    ok.quiescent_master, ?_, ?_, ?_, ok.unfinished, ?_, index⟩
  · simp only [site]
    exact ok.site
  · unfold Pc.declining
    split <;> simp_all [Pc.isIdle]
  · intro single
    have busy := ok.alone single
    rw [was] at busy
    cases busy
  · intro waiting
    obtain ⟨before, backoff, -⟩ := ok.in_wait waiting
    exact ⟨before, backoff, inWait waiting⟩
  · intro quiescent several
    obtain ⟨deque, rets, -⟩ := ok.quiescent_empty quiescent several
    refine ⟨deque, rets, ?_⟩
    unfold Pc.held
    split <;> simp_all [Pc.isIdle]
  · rintro rfl
    cases idle
  · unfold Pc.leaving
    split <;> simp_all [Pc.isIdle]
  · rw [awaiting_goto (by rw [site])]
    exact ok.awaiting

end LocalMoves

/-! ## What the token protocol says about a worker's node -/

def Node.elsewhere (cfg : Config) (ctx : Context) (w : ℕ) (n : Node) : Multiset (Place × Token) :=
  n.net.tokens cfg + located (.queue w) n.self.workSharingRequests + ctx.tokens

section Nodes

variable {cfg : Config} {ctx : Context} {w : ℕ} {n n' : Node} {req : StealRequest} {net : Network}
  {x : Worker} {pc : Pc} {owner chan : ℕ}

theorem ring_hand (hand : n.self.pc.hand = some req) :
    (n.ring cfg ctx w).tokens = (.hand w, req.token) ::ₘ n.elsewhere cfg ctx w := by
  simp [Node.ring, Node.elsewhere, Worker.tokens, hand, Multiset.add_cons, add_assoc]

theorem hand_member (hand : n.self.pc.hand = some req) :
    (.hand w, req.token) ∈ (n.ring cfg ctx w).tokens := by
  rw [ring_hand hand]
  exact Multiset.mem_cons_self _ _

theorem ring_empty (hand : n.self.pc.hand = none) :
    (n.ring cfg ctx w).tokens = n.elsewhere cfg ctx w := by
  simp [Node.ring, Node.elsewhere, Worker.tokens, hand]

@[simp] theorem ring_agent : (n.ring cfg ctx w).agent w = n.self.agent := by
  simp [Node.ring]

/-- The agents after the worker's own has changed. -/
theorem agents_set {agent agent' : Agent} (same : agent' = agent) :
    update ctx.agents w agent' = ((n.ring cfg ctx w).set w agent).agent := by
  subst same
  simp [TokenProtocol.State.set, Node.ring]

theorem length_le_elsewhere (ctx : Context) (w : ℕ) (n : Node) {v : ℕ}
    (target : v < cfg.numWorkers) : (n.net.chanRequests v).length ≤
    (n.elsewhere cfg ctx w).card := by
  have split := gather_split (f := fun i => located (.channel i) (n.net.chanRequests i)) target
  have card := congrArg Multiset.card split
  simp only [Multiset.card_add] at card
  have here : (located (.channel v) (n.net.chanRequests v)).card =
    (n.net.chanRequests v).length := by
    simp [located]
  simp only [Node.elsewhere, Network.tokens, Multiset.card_add]
  omega

/-- With a request in hand, and no more requests than channels, there is room for it
everywhere. -/
theorem room_of_hand (bound : (n.ring cfg ctx w).tokens.card ≤ cfg.numWorkers * cfg.maxSteal)
    (hand : n.self.pc.hand = some req) : n.net.Room cfg := by
  intro v target
  have length := length_le_elsewhere ctx w n target
  rw [ring_hand hand, Multiset.card_cons] at bound
  rw [Config.requestCapacity, Nat.mul_comm]
  omega

namespace Pre

variable (pre : Pre cfg ctx w n)
include pre

theorem account : Account cfg.maxSteal n.self.agent ((n.ring cfg ctx w).of w) := by
  simpa using pre.tokens.account w pre.worker

theorem room_of_hand (hand : n.self.pc.hand = some req) : n.net.Room cfg :=
  Runtime.room_of_hand pre.tokens.card_tokens_le hand

/-- With a free channel there is room for a new request everywhere. -/
theorem room_of_free (hand : n.self.pc.hand = none) (free : n.self.channelStack ≠ []) :
    n.net.Room cfg := by
  intro v target
  have bound := pre.tokens.card_tokens_lt pre.worker (by simpa [Worker.agent] using free)
  have length := length_le_elsewhere ctx w n target
  rw [ring_empty hand] at bound
  rw [Config.requestCapacity, Nat.mul_comm]
  omega

/-- A request in hand is one of the live tokens of its owner. -/
theorem hand_account (hand : n.self.pc.hand = some req) (own : req.token.owner = w) :
    Account cfg.maxSteal n.self.agent
      (req.token ::ₘ bag (n.elsewhere cfg ctx w) (n.ring cfg ctx w).answers w) := by
  have acc := pre.tokens.token_account (ring_hand hand)
  rw [own] at acc
  simpa using acc

theorem hand_live (hand : n.self.pc.hand = some req) : req.token.state ≠ .failed :=
  pre.tokens.hand_live (w := w) (by rw [ring_hand hand]; exact Multiset.mem_cons_self _ _)

theorem unquiet (master : w = 0) (quiescent : n.self.quiescent = true) :
    n.self.pc.isIdle = false := by
  by_cases several : 2 ≤ cfg.numWorkers
  · have quiet : (n.ring cfg ctx w).quiescent = true := by simp [Node.ring, master, quiescent]
    have busy := (pre.tokens.quiet several quiet).1
    subst master
    simpa [Worker.agent] using busy
  · exact pre.loc.alone (by have := cfg.someWorker; omega)

/-- A worker that waits is idle. -/
theorem not_waiting (busy : n.self.pc.isIdle = false) : n.self.waitingForTasks = false := by
  by_contra waiting
  have idle := (pre.account.waits (by simpa [Worker.agent] using waiting)).1
  simp [Worker.agent, busy] at idle

/-- The channel a token carries is empty, so that sending to it succeeds. -/
theorem slot_empty {p : Place} {r : Token} (member : (p, r) ∈ (n.ring cfg ctx w).tokens) :
    r.owner < cfg.numWorkers ∧ r.chan < cfg.maxSteal ∧ n.net.chanTasks r.owner r.chan = none := by
  obtain ⟨rest, held⟩ := Multiset.exists_cons_of_mem member
  have acc := pre.tokens.token_account held
  have owner := pre.tokens.token_owner_lt member
  have chan : r.chan < cfg.maxSteal := acc.chan_lt (Multiset.mem_cons_self _ _)
  refine ⟨owner, chan, ?_⟩
  cases slot : n.net.chanTasks r.owner r.chan with
  | none => rfl
  | some message =>
    obtain ⟨-, -, batch, state, -, rfl⟩ := pre.net.slots _ _ _ slot
    have answer : (⟨r.owner, r.chan, state⟩ : Token) ∈ n.net.answers cfg :=
      mem_answers.mpr ⟨batch, owner, chan, slot⟩
    have mine : (⟨r.owner, r.chan, state⟩ : Token) ∈ bag rest (n.net.answers cfg) r.owner :=
      Multiset.mem_filter.mpr ⟨Multiset.mem_add.mpr (.inr answer), rfl⟩
    exact absurd (Multiset.mem_map_of_mem Token.chan mine) acc.chan_unique

/-- Whoever has a task is busy, and termination was not detected. -/
theorem awake_of_task (member : n.self.deque ≠ [] ∨ n.self.frames ≠ [] ∨ n.self.pc.held ≠ none)
    (several : 2 ≤ cfg.numWorkers) : n.self.quiescent = false := by
  by_contra quiescent
  obtain ⟨deque, rets, held⟩ := pre.loc.quiescent_empty (by simpa [Worker.loc] using quiescent)
    several
  have frames : n.self.frames = [] := List.map_eq_nil_iff.mp rets
  exact member.elim (absurd deque) fun other => other.elim (absurd frames) (absurd held)

end Pre

/-! ## Channels -/

theorem NetOk.pushRequest {v : ℕ} (ok : NetOk cfg net) (target : v < cfg.numWorkers) :
    NetOk cfg (net.pushRequest v req) := by
  refine ⟨ok.running, ok.lossless, fun i some => ?_, ok.slots⟩
  by_cases same : i = v
  · exact same ▸ target
  · exact ok.requests i (by simpa [Network.pushRequest, same] using some)

theorem NetOk.dropRequest {v : ℕ} (ok : NetOk cfg net) :
    NetOk cfg (net.dropRequest v) := by
  refine ⟨ok.running, ok.lossless, fun i some => ?_, ok.slots⟩
  by_cases same : i = v
  · subst same
    refine ok.requests i fun none => some ?_
    simp [Network.dropRequest, none]
  · exact ok.requests i (by simpa [Network.dropRequest, same] using some)

theorem sendTasks_eq {batch : List Task} {state : ReqState}
    (empty : net.chanTasks owner chan = none) :
    net.sendTasks owner chan batch state = net.putTask owner chan (some (.tasks batch state)) := by
  simp [Network.sendTasks, empty]

theorem NetOk.putTask {batch : List Task} {state : ReqState} (ok : NetOk cfg net)
    (worker : owner < cfg.numWorkers) (inside : chan < cfg.maxSteal) (nonempty : batch ≠ []) :
    NetOk cfg (net.putTask owner chan (some (.tasks batch state))) := by
  refine ⟨ok.running, ok.lossless, ok.requests, fun o c message held => ?_⟩
  by_cases here : o = owner ∧ c = chan
  · obtain ⟨rfl, rfl⟩ := here
    simp only [Network.putTask, update_self, Option.some.injEq] at held
    exact ⟨worker, inside, batch, state, nonempty, held.symm⟩
  · refine ok.slots o c message ?_
    by_cases row : o = owner
    · subst row
      have other : c ≠ chan := fun same => here ⟨rfl, same⟩
      simpa [Network.putTask, other] using held
    · simpa [Network.putTask, row] using held

theorem NetOk.takeTask (ok : NetOk cfg net) :
    NetOk cfg (net.putTask owner chan none) := by
  refine ⟨ok.running, ok.lossless, ok.requests, fun o c message held => ?_⟩
  by_cases here : o = owner ∧ c = chan
  · obtain ⟨rfl, rfl⟩ := here
    simp [Network.putTask] at held
  · refine ok.slots o c message ?_
    by_cases row : o = owner
    · subst row
      have other : c ≠ chan := fun same => here ⟨rfl, same⟩
      simpa [Network.putTask, other] using held
    · simpa [Network.putTask, row] using held

/-- A message sent to one channel leaves every other one as it was. -/
theorem putTask_isSome {owner chan v c : ℕ} {message : Message}
    (before : (net.chanTasks v c).isSome) :
    ((net.putTask owner chan (some message)).chanTasks v c).isSome := by
  by_cases row : v = owner
  · subst row
    by_cases column : c = chan
    · subst column
      simp [Network.putTask]
    · simpa [Network.putTask, column] using before
  · simpa [Network.putTask, row] using before

theorem Depends.goPlain {ID : ℕ} {l l' : Local} {net net' : Network} (dep : Depends cfg ID l net)
    (awake : l'.waiting = false) (awaiting : l'.awaiting = l.awaiting)
    (known : net.nextFuture ≤ net'.nextFuture)
    (futures : ∀ f < net.nextFuture, (net'.futures f).creator = (net.futures f).creator ∧
      (net'.futures f).result = (net.futures f).result ∧
      (net'.futures f).awaited = (net.futures f).awaited) :
    Depends cfg ID l' net' := by
  refine ⟨fun f member => ?_, fun _ waiting => ?_⟩
  · rw [awaiting] at member
    obtain ⟨inside, creator, result, awaited⟩ := dep.futures f member
    obtain ⟨sameCreator, sameResult, sameAwaited⟩ := futures f inside
    exact ⟨inside.trans_le known, sameCreator.trans creator, sameResult.trans result,
      sameAwaited.trans awaited⟩
  · rw [awake] at waiting
    cases waiting

/-! ## Views -/

theorem tagsOf_append (first second : List Task) :
    tagsOf (first ++ second) = tagsOf first + tagsOf second := by
  simp [tagsOf, ← Multiset.coe_add]

theorem coe_concat (ids : List ℕ) (id : ℕ) :
    ((ids ++ [id] : List ℕ) : Multiset ℕ) = id ::ₘ (ids : Multiset ℕ) :=
  Multiset.coe_eq_coe.mpr (List.perm_append_singleton id ids)

theorem place_add (spot : Spot) (first second : Multiset Tag) :
    place spot (first + second) = place spot first + place spot second := by
  simp [place]

theorem tasks_goto (held : tagsOf pc.held.toList = tagsOf x.pc.held.toList) :
    Worker.tasks w { x with pc := pc } = x.tasks w := by
  simp only [Worker.tasks, tagsOf_append, held]

theorem tokenStep_to {a b b' : TokenProtocol.State} {N M : ℕ}
    (step : TokenProtocol.Step N M a b) (agent : b'.agent = b.agent)
    (quiescent : b'.quiescent = b.quiescent) (tokens : b'.tokens = b.tokens)
    (answers : b'.answers = b.answers) : ReflTransGen (TokenProtocol.Step N M) a b' := by
  have same : b' = b := by
    cases b
    cases b'
    simp_all
  exact same ▸ .single step

theorem custodyStep_to {a b b' : Custody.State} (step : Custody.Step w a b)
    (tasks : b'.tasks = b.tasks) (created : b'.created = b.created)
    (started : b'.started = b.started) (finished : b'.finished = b.finished)
    (nextId : b'.nextId = b.nextId) (nextFuture : b'.nextFuture = b.nextFuture)
    (futures : b'.futures = b.futures) : ReflTransGen (Custody.Step w) a b' := by
  have same : b' = b := by
    cases b
    cases b'
    simp_all
  exact same ▸ .single step

/-! ## Moving on -/

/-- The token protocol does not see what else changed. -/
theorem tokens_unchanged (agent : n'.self.agent = n.self.agent)
    (quiescent : w = 0 → n'.self.quiescent = n.self.quiescent)
    (tokens : n'.self.tokens w = n.self.tokens w)
    (requests : n'.net.chanRequests = n.net.chanRequests)
    (slots : n'.net.chanTasks = n.net.chanTasks) :
    ReflTransGen (TokenProtocol.Step cfg.numWorkers cfg.maxSteal) (n.ring cfg ctx w)
      (n'.ring cfg ctx w) := by
  have same : n'.ring cfg ctx w = n.ring cfg ctx w := by
    simp only [Node.ring, Network.tokens, Network.answers, agent, tokens, requests, slots,
      TokenProtocol.State.mk.injEq, and_true, true_and]
    split
    · next master => exact quiescent master
    · rfl
  rw [same]

theorem ring_goto (hand : pc.hand = n.self.pc.hand) (idle : pc.isIdle = n.self.pc.isIdle) :
    (n.goto pc).ring cfg ctx w = n.ring cfg ctx w := by
  simp only [Node.ring, Node.goto, Worker.agent, Worker.tokens, hand, idle]
  rfl

theorem custody_goto (held : tagsOf pc.held.toList = tagsOf n.self.pc.held.toList) :
    (n.goto pc).custody cfg ctx w = n.custody cfg ctx w := by
  simp only [Node.custody, Node.goto, tasks_goto held]

/-- Going on to a program point outside the idle loops without touching
anything. -/
theorem Pre.goPlain (pre : Pre cfg ctx w n) (plain : { n.self.loc with pc := pc }.Plain cfg w)
    (hand : pc.hand = n.self.pc.hand) (busy : n.self.pc.isIdle = false)
    (site : SiteOk w n.self.loc.rets pc.site)
    (futures : Site.futures pc.site = Site.futures n.self.pc.site)
    (held : pc.held = n.self.pc.held) :
    Simulated cfg ctx w n (n.goto pc) := by
  have awake := pre.not_waiting busy
  refine ⟨?_, ?_, ?_, pre.net, ?_, fun _ _ _ some => some⟩
  · rw [ring_goto hand ((Pc.plain_facts plain.plain).1.trans busy.symm)]
  · rw [custody_goto (by rw [held])]
  · refine pre.loc.goPlain plain site futures awake fun quiescent several => ?_
    obtain ⟨deque, -, none⟩ := pre.loc.quiescent_empty quiescent several
    exact ⟨deque, held.trans none⟩
  · exact pre.depends.goPlain awake (awaiting_goto (l := n.self.loc) futures) le_rfl
      fun _ _ => ⟨rfl, rfl, rfl⟩

theorem Pre.goIdle (pre : Pre cfg ctx w n) (was : n.self.pc.isIdle = true) (idle : pc.isIdle = true)
    (hand : pc.hand = n.self.pc.hand) (site : pc.site = n.self.pc.site)
    (held : pc.held = n.self.pc.held) (scan : pc.scanOk cfg w n.self.flag)
    (waits : n.self.waitingForTasks = true → cfg.backoff ≠ .off → pc.mayWait = true)
    (inWait : n.self.inWait = true → pc = .recvTask .schedule 0)
    (index : ∀ site i, pc = .recvTask site i → i < cfg.maxSteal)
    (woken : cfg.backoff = .waitCond → n.self.waitingForTasks = true → n.self.inWait = false →
      ∃ i, pc = .recvTask .schedule i ∧ ∃ j, i ≤ j ∧ j < cfg.maxSteal ∧
        (n.net.chanTasks w j).isSome) : Simulated cfg ctx w n (n.goto pc) := by
  refine ⟨?_, ?_, ?_, pre.net, ⟨?_, woken⟩, fun _ _ _ some => some⟩
  · rw [ring_goto hand (idle.trans was.symm)]
  · rw [custody_goto (by rw [held])]
  · exact pre.loc.goIdle was idle site scan waits inWait index
  · intro f member
    have same : (n.goto pc).self.loc.awaiting = n.self.loc.awaiting :=
      awaiting_goto (l := n.self.loc) (congrArg Site.futures site)
    exact pre.depends.futures f (same ▸ member)

/-! ## Workers that differ in bookkeeping only -/

theorem Alike.ring (same : Alike n.self x) :
    (⟨x, n.net⟩ : Node).ring cfg ctx w = n.ring cfg ctx w := by
  simp only [Node.ring, same.agent, same.tokens w, same.quiescent]

theorem Alike.custody (same : Alike n.self x) :
    (⟨x, n.net⟩ : Node).custody cfg ctx w = n.custody cfg ctx w := by
  simp only [Node.custody, same.tasks w]

theorem Pre.alike (pre : Pre cfg ctx w n) (same : Alike n.self x) :
    Pre cfg ctx w ⟨x, n.net⟩ := by
  refine ⟨pre.worker, ?_, ?_, ?_, ?_, pre.net, ?_⟩
  · rw [same.ring]
    exact pre.tokens
  · rw [same.custody]
    exact pre.conserved
  · rw [same.custody]
    exact pre.kept
  · rw [same.loc]
    exact pre.loc
  · rw [same.loc]
    exact pre.depends

theorem Simulated.of_alike (same : Alike n.self x) (sim : Simulated cfg ctx w ⟨x, n.net⟩ n') :
    Simulated cfg ctx w n n' := by
  refine ⟨?_, ?_, sim.loc, sim.net, sim.depends, sim.slots⟩
  · rw [← same.ring]
    exact sim.tokens
  · rw [← same.custody]
    exact sim.custody

/-! ## The outcomes of handling a request -/

section Outcomes

variable {pc : Pc} {k : ReqCont} {p : Place} {future : Bool}

theorem relayed_tokens (hand : n.self.pc.hand = some req) (after : pc.hand = none)
    (idle : pc.isIdle = n.self.pc.isIdle) {v : ℕ} (target : v < cfg.numWorkers)
    {passed : StealRequest} (same : passed.token = req.token) :
    ReflTransGen (TokenProtocol.Step cfg.numWorkers cfg.maxSteal) (n.ring cfg ctx w)
      ((Node.goto { n with net := n.net.pushRequest v passed } pc).ring cfg ctx w) := by
  refine tokenStep_to (.relay (v := v) (ring_hand hand)) ?_ rfl ?_ rfl
  · simp only [Node.ring, Node.goto, Worker.agent, idle]
    rfl
  · rw [ring_empty after]
    simp only [Node.elsewhere, Node.goto, tokens_pushRequest target, same, Multiset.cons_add]

theorem forgotten_tokens (pre : Pre cfg ctx w n) (hand : n.self.pc.hand = some req)
    (after : pc.hand = none) (idle : pc.isIdle = n.self.pc.isIdle) (own : req.token.owner = w) :
    ReflTransGen (TokenProtocol.Step cfg.numWorkers cfg.maxSteal) (n.ring cfg ctx w)
      ((Node.goto { n with self := { n.self with
        requested := n.self.requested - 1
        channelStack := req.token.chan :: n.self.channelStack } } pc).ring cfg ctx w) := by
  refine tokenStep_to (.forget pre.worker (ring_hand hand) own) (agents_set ?_) rfl ?_ rfl
  · simp only [ring_agent, Worker.agent, Node.goto, idle]
    rfl
  · rw [ring_empty after]
    rfl

theorem dropped_tokens (pre : Pre cfg ctx w n) (hand : n.self.pc.hand = some req)
    (after : pc.hand = none) (same : pc.isIdle = n.self.pc.isIdle) (own : req.token.owner = w)
    (idle : req.token.state = .idle) (below : ∀ side, n.self.flag side = true)
    (more : ¬ LastToken cfg.maxSteal n.self.agent req.token) :
    ReflTransGen (TokenProtocol.Step cfg.numWorkers cfg.maxSteal) (n.ring cfg ctx w)
      ((Node.goto { n with self := { n.self with
        channelStack := req.token.chan :: n.self.channelStack
        droppedStealRequests := n.self.droppedStealRequests + 1 } } pc).ring cfg ctx w) := by
  refine tokenStep_to (.drop pre.worker (ring_hand hand) own idle (by simpa using more)
    (by simpa [Worker.agent] using below)) (agents_set ?_) rfl ?_ rfl
  · simp only [ring_agent, Worker.agent, Node.goto, same]
    rfl
  · rw [ring_empty after]
    rfl

theorem retired_tokens (pre : Pre cfg ctx w n) (hand : n.self.pc.hand = some req)
    (after : pc.hand = none) (same : pc.isIdle = n.self.pc.isIdle) (own : req.token.owner = w)
    (last : LastToken cfg.maxSteal n.self.agent req.token) {p : ℕ} (climbs : parent w = some p)
    {passed : StealRequest} (failed : passed.token = { req.token with state := .failed })
    {inWait : Bool} :
    ReflTransGen (TokenProtocol.Step cfg.numWorkers cfg.maxSteal) (n.ring cfg ctx w)
      ((Node.goto ⟨{ n.self with waitingForTasks := true, inWait := inWait },
        n.net.pushRequest p passed⟩ pc).ring cfg ctx w) := by
  have target : p < cfg.numWorkers := (parent_lt climbs).trans pre.worker
  refine tokenStep_to (.retire pre.worker (ring_hand hand) own (by simpa using last) climbs)
    (agents_set ?_) rfl ?_ rfl
  · simp only [ring_agent, Worker.agent, Node.goto, same]
    rfl
  · rw [ring_empty after]
    simp only [Node.elsewhere, Node.goto, tokens_pushRequest target, failed, Multiset.cons_add]

theorem detected_tokens (pre : Pre cfg ctx w n) (hand : n.self.pc.hand = some req)
    (after : pc.hand = none) (busy : pc.isIdle = false) (own : req.token.owner = w)
    (master : w = 0) (last : LastToken cfg.maxSteal n.self.agent req.token) :
    ReflTransGen (TokenProtocol.Step cfg.numWorkers cfg.maxSteal) (n.ring cfg ctx w)
      ((Node.goto { n with self := { n.self with
        quiescent := true, requested := n.self.requested - 1
        channelStack := req.token.chan :: n.self.channelStack } } pc).ring cfg ctx w) := by
  subst master
  refine tokenStep_to (.detect pre.worker (ring_hand hand) own (by simpa using last))
    (agents_set ?_) rfl ?_ rfl
  · simp only [ring_agent, Worker.agent, Node.goto, busy]
    rfl
  · rw [ring_empty after]
    rfl

/-! ### Stolen tasks -/

theorem convertFutures_eq (batch : List Task) (futures : ℕ → LazyFuture) :
    convertFutures batch futures = convertAll (tagsOf batch) futures := by
  induction batch generalizing futures with
  | nil =>
    funext f
    simp [convertFutures, convertAll, tagsOf]
  | cons t rest ih =>
    have shape : tagsOf (t :: rest) = t.tag ::ₘ tagsOf rest := rfl
    cases future : t.future with
    | none =>
      have skips : convertFutures (t :: rest) futures = convertFutures rest futures := by
        simp [convertFutures, future]
      rw [skips, ih, shape]
      funext f
      simp only [convertAll, Multiset.filterMap_cons_none t.tag _ (show t.tag.future =
        none from future)]
    | some g =>
      have first : convertFutures (t :: rest) futures =
          convertFutures rest (update futures g (futures g).convert) := by
        simp [convertFutures, future]
      rw [first, ih, shape]
      funext f
      simp only [convertAll,
        Multiset.filterMap_cons_some _ t.tag _ (show t.tag.future = some g from future),
        Multiset.mem_cons]
      by_cases same : f = g
      · subst same
        simp only [update_self, true_or, ↓reduceIte]
        split
        · exact LazyFuture.convert_of_hasChannel LazyFuture.convert_hasChannel
        · rfl
      · simp only [update_of_ne same, same, false_or]

theorem takeLoot_tags (deque : List Task) :
    tagsOf deque = tagsOf (takeLoot cfg req deque).1 + tagsOf (takeLoot cfg req deque).2 := by
  conv_lhs => rw [← List.take_append_drop (deque.length - lootSize cfg req deque) deque]
  rw [tagsOf_append, add_comm]
  rfl

theorem lootSize_pos (deque : List Task) : 0 < lootSize cfg req deque := by
  have half : 0 < if deque.length / 2 = 0 then 1 else deque.length / 2 := by
    split <;> omega
  unfold lootSize
  cases cfg.steal with
  | one => exact Nat.one_pos
  | half => exact half
  | adaptive =>
    simp only
    split
    · exact half
    · exact Nat.one_pos

theorem takeLoot_nonempty {deque : List Task} (some : deque ≠ []) :
    (takeLoot cfg req deque).1 ≠ [] := by
  have positive : 0 < deque.length := List.length_pos_iff.mpr some
  have size := @lootSize_pos cfg req deque
  intro none
  have length := congrArg List.length none
  simp only [takeLoot, stealLast, List.length_drop, List.length_nil] at length
  omega

theorem markVictim_tags (ID : ℕ) (batch : List Task) :
    tagsOf (markVictim cfg ID batch) = tagsOf batch := by
  cases batch with
  | nil => rfl
  | cons t rest =>
    simp only [markVictim]
    split <;> rfl

theorem markVictim_nonempty {ID : ℕ} {batch : List Task} (some : batch ≠ []) :
    markVictim cfg ID batch ≠ [] := by
  cases batch with
  | nil => exact absurd rfl some
  | cons t rest => simp [markVictim]

/-- What sending stolen tasks comes to when the channel is empty. -/
theorem sendLoot_eq (empty : n.net.chanTasks req.ID req.chan = none) :
    sendLoot cfg w req n =
      { self := { n.self with
          deque := (takeLoot cfg req n.self.deque).2
          lastThief := if cfg.victims = .lastThief then req.ID else n.self.lastThief }
        net := Network.putTask
          { n.net with futures := convertFutures (takeLoot cfg req n.self.deque).1 n.net.futures }
          req.ID req.chan
          (some (.tasks (markVictim cfg w (takeLoot cfg req n.self.deque).1) req.state)) } := by
  simp [sendLoot, sendTasks_eq, empty]

/-- Stolen tasks leave the deque for the channel, with their futures converted. -/
theorem loot_custody (pre : Pre cfg ctx w n) (member : (p, req.token) ∈ (n.ring cfg ctx w).tokens) :
    ReflTransGen (Custody.Step w) (n.custody cfg ctx w)
      ((sendLoot cfg w req n).custody cfg ctx w) := by
  obtain ⟨owner, chan, empty⟩ : req.ID < cfg.numWorkers ∧ req.chan < cfg.maxSteal ∧
    n.net.chanTasks req.ID req.chan = none := pre.slot_empty member
  rw [sendLoot_eq empty]
  have tags := @takeLoot_tags cfg req n.self.deque
  have before : (n.custody cfg ctx w).tasks =
      place (.ready w) (tagsOf (takeLoot cfg req n.self.deque).1) + (n.net.tasks cfg +
        (place (.ready w) (tagsOf (n.self.pc.held.toList ++ (takeLoot cfg req n.self.deque).2)) +
          place (.running w) (tagsOf (n.self.frames.map Frame.task))) + ctx.tasks) := by
    simp only [Node.custody, Worker.tasks, tagsOf_append, place_add, tags]
    abel
  have step := @Custody.Step.send w _ req.ID req.chan _ _ before
  refine .single ?_
  convert step using 1
  simp only [Node.custody, Custody.State.mk.injEq]
  refine ⟨?_, rfl, rfl, rfl, rfl, rfl, ?_⟩
  · rw [tasks_putTask owner chan (by exact empty), markVictim_tags]
    simp only [Worker.tasks, tagsOf_append, place_add]
    have same : Network.tasks cfg
        { n.net with futures := convertFutures (takeLoot cfg req n.self.deque).1 n.net.futures } =
        n.net.tasks cfg := rfl
    rw [same]
    abel
  · exact convertFutures_eq _ _

/-! ### Sending tasks -/

/-- The channels after tasks were sent in answer to a request. -/
structure Sent (cfg : Config) (r : Token) (net net' : Network) : Prop where
  tokens : net'.tokens cfg = net.tokens cfg
  answers : net'.answers cfg = r ::ₘ net.answers cfg
  ok : NetOk cfg net'
  slots : ∀ v c, (net.chanTasks v c).isSome → (net'.chanTasks v c).isSome
  known : net.nextFuture ≤ net'.nextFuture
  futures : ∀ f < net.nextFuture, (net'.futures f).creator = (net.futures f).creator ∧
    (net'.futures f).result = (net.futures f).result ∧
    (net'.futures f).awaited = (net.futures f).awaited

theorem loot_sent (pre : Pre cfg ctx w n) (member : (p, req.token) ∈ (n.ring cfg ctx w).tokens)
    (some : n.self.deque ≠ []) :
    Sent cfg req.token n.net (sendLoot cfg w req n).net := by
  obtain ⟨owner, chan, empty⟩ : req.ID < cfg.numWorkers ∧ req.chan < cfg.maxSteal ∧
    n.net.chanTasks req.ID req.chan = none := pre.slot_empty member
  rw [sendLoot_eq empty]
  refine ⟨rfl, answers_putTask owner chan empty, ?_, fun v c => putTask_isSome, le_rfl,
    fun f _ => ?_⟩
  · refine NetOk.putTask ⟨pre.net.running, pre.net.lossless, pre.net.requests, pre.net.slots⟩
      owner chan (markVictim_nonempty (takeLoot_nonempty some))
  · simp only [Network.putTask, convertFutures_eq, convertAll]
    split
    · simp
    · exact ⟨rfl, rfl, rfl⟩

theorem split_sent (pre : Pre cfg ctx w n) (member : (p, req.token) ∈ (n.ring cfg ctx w).tokens)
    (out : SplitOff w future req.token n n') : Sent cfg req.token n.net n'.net := by
  obtain ⟨owner, chan, empty⟩ := pre.slot_empty member
  obtain ⟨addr, dup, -, net⟩ := out.net
  have still : (n.net.create addr future (.heap w)).chanTasks req.token.owner req.token.chan =
    none := empty
  rw [net, sendTasks_eq still]
  refine ⟨rfl, answers_putTask owner chan still, ?_, fun v c => putTask_isSome, ?_,
    fun f inside => ?_⟩
  · exact NetOk.putTask ⟨pre.net.running, pre.net.lossless, pre.net.requests, pre.net.slots⟩
      owner chan (List.cons_ne_nil _ _)
  · simp only [Network.putTask, Network.create]
    split
    · exact Nat.le_succ _
    · exact le_rfl
  · simp only [Network.putTask, Network.create]
    split
    · rw [update_of_ne inside.ne]
      exact ⟨rfl, rfl, rfl⟩
    · exact ⟨rfl, rfl, rfl⟩

/-- A part split off a loop is created and sent in one go. -/
theorem split_custody (pre : Pre cfg ctx w n) (member : (p, req.token) ∈ (n.ring cfg ctx w).tokens)
    (out : SplitOff w future req.token n n') {x : Worker} (tasks : x.tasks w = n.self.tasks w) :
    ReflTransGen (Custody.Step w) (n.custody cfg ctx w)
      ((⟨x, n'.net⟩ : Node).custody cfg ctx w) := by
  obtain ⟨owner, chan, empty⟩ := pre.slot_empty member
  obtain ⟨addr, dup, tag, net⟩ := out.net
  have still : (n.net.create addr future (.heap w)).chanTasks req.token.owner req.token.chan =
    none := empty
  have batch : tagsOf [dup] = {dup.tag} := rfl
  rw [net, sendTasks_eq still]
  have after : (⟨x, (n.net.create addr future (.heap w)).putTask req.token.owner req.token.chan
      (some (.tasks [dup] req.token.state))⟩ : Node).custody cfg ctx w =
      { n.custody cfg ctx w with
        tasks := place (.sent req.token.owner req.token.chan) {dup.tag} +
          (n.custody cfg ctx w).tasks
        created := n.net.nextId ::ₘ (n.net.created : Multiset ℕ)
        nextId := n.net.nextId + 1
        futures := (n.net.create addr future (.heap w)).futures
        nextFuture := (n.net.create addr future (.heap w)).nextFuture } := by
    simp only [Node.custody, tasks_putTask owner chan still, tasks, batch, Custody.State.mk.injEq]
    refine ⟨?_, coe_concat _ _, rfl, rfl, rfl, rfl, rfl⟩
    have same : Network.tasks cfg (n.net.create addr future (.heap w)) = n.net.tasks cfg := rfl
    rw [same]
    abel
  rw [after, tag]
  cases future with
  | false => exact Custody.create_sent
  | true => exact Custody.createFuture_sent

/-- What answering a request with tasks does to a worker and the channels. -/
structure Gives (cfg : Config) (ctx : Context) (w : ℕ) (r : Token) (n n' : Node) : Prop where
  sent : Sent cfg r n.net n'.net
  custody : ReflTransGen (Custody.Step w) (n.custody cfg ctx w) (n'.custody cfg ctx w)
  agent : n'.self.agent = n.self.agent
  queue : n'.self.workSharingRequests = n.self.workSharingRequests
  loc : n'.self.loc = { n.self.loc with deque := n'.self.deque }
  awake : n.self.quiescent = false

/-- Whoever has a task to give away is not quiescent. -/
theorem Pre.awake_giving (pre : Pre cfg ctx w n) {r : Token}
    (member : (p, r) ∈ (n.ring cfg ctx w).tokens) (other : r.owner ≠ w)
    (task : n.self.deque ≠ [] ∨ n.self.frames ≠ [] ∨ n.self.pc.held ≠ none) :
    n.self.quiescent = false := by
  have owner := (pre.slot_empty member).1
  have worker := pre.worker
  exact pre.awake_of_task task (by omega)

theorem loot_gives (pre : Pre cfg ctx w n) (member : (p, req.token) ∈ (n.ring cfg ctx w).tokens)
    (other : req.token.owner ≠ w) (some : n.self.deque ≠ []) :
    Gives cfg ctx w req.token n (sendLoot cfg w req n) :=
  ⟨loot_sent pre member some, loot_custody pre member, rfl, rfl, rfl,
    pre.awake_giving member other (.inl some)⟩

theorem split_gives (pre : Pre cfg ctx w n) (member : (p, req.token) ∈ (n.ring cfg ctx w).tokens)
    (other : req.token.owner ≠ w) (out : SplitOff w future req.token n n') {x : Worker}
    (alike : Alike n'.self x)
    (task : n.self.deque ≠ [] ∨ n.self.frames ≠ [] ∨ n.self.pc.held ≠ none) :
    Gives cfg ctx w req.token n ⟨x, n'.net⟩ := by
  have same := out.self.trans alike
  have sent := split_sent pre member out
  refine ⟨sent, split_custody pre member out (same.tasks w), same.agent,
    same.queue, ?_, pre.awake_giving member other task⟩
  simp only [same.loc, same.deque]
  rfl

end Outcomes
end Nodes

end Tasking.Runtime
