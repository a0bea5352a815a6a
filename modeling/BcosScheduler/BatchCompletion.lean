/-
BcosScheduler/BatchCompletion.lean

One batch with all its parties: the traversal of `startBatch` that sends the
messages, a reply handler for every message, and `checkBatch`, which the
handlers and, after its traversal, the sender run concurrently.

A handler writes the reply into its state, counts it and calls `checkBatch` in
separate steps; `checkBatch` reads `allSended`, compares the counters, and then
races for `callbackExecuted`.  `Machine` of `BcosScheduler.Machine` takes these
steps at once; here they interleave with each other and with the traversal,
which increments `total` before it hands a message over.

Whoever wins the race makes the pass over the states and calls the callback.
The winner finds the batch complete (`Inv.ready`), there is one winner in every
run that comes to its end (`Inv.live`), and the callback is missed only if the
pass throws.
-/
import BcosScheduler.AsyncExecute

namespace BcosScheduler

/-- How far somebody is in `checkBatch`. -/
inductive CheckStage
  | called
  /-- Has read `allSended`. -/
  | allSended
  /-- Has found all replies counted. -/
  | counted
  | returned
  deriving DecidableEq, Repr

/-- How far a reply handler is. -/
inductive HandlerStage
  /-- The executor has not replied. -/
  | waiting
  /-- The reply is written into the state. -/
  | stored
  | checking (stage : CheckStage)
  deriving DecidableEq, Repr

/-- The reply handler of a message. -/
structure Handler where
  dispatch : Dispatch
  stage : HandlerStage := .waiting
  deriving DecidableEq, Repr

/-- A batch in progress.  `sending` is the message between `++total` and the
call of the executor, `sender` is where the sender is in `checkBatch` after its
traversal, and `completions` are the ends of those who won the race. -/
structure BatchRun where
  machine : Machine
  sending : Option Dispatch := none
  handlers : List Handler := []
  sender : Option CheckStage := none
  completions : List BatchEnd := []
  deriving DecidableEq

/-- The reply has been counted. -/
def Handler.counted (h : Handler) : Bool :=
  match h.stage with
  | .checking _ => true
  | _ => false

/-- Where the handler is in `checkBatch`. -/
def Handler.checkStage (h : Handler) : Option CheckStage :=
  match h.stage with
  | .checking stage => some stage
  | _ => none

/-- What the batch callback is called with, if it is called. -/
def BatchEnd.callback : BatchEnd → Option (Option Error)
  | .error e => some (some e)
  | .next _ _ _ => some none
  | .fault _ => none

namespace Machine

/-- Write a reply into its state. -/
def store (m : Machine) (c : ContextID) (reply : Reply) : Machine :=
  { m with
    todo := m.todo.map (storeAt c reply)
    cursor := { m.cursor with visited := m.cursor.visited.map (storeAt c reply) }
    log := { m.log with status := { m.log.status with
      error := m.log.status.error + if reply.failed then 1 else 0 } }
    replied := m.replied ++ [(c, reply)] }

/-- `++batchStatus->received`. -/
def count (m : Machine) : Machine :=
  { m with log := { m.log with status := { m.log.status with
      received := m.log.status.received + 1 } } }

end Machine

namespace BatchRun

/-- `startBatch` before its traversal. -/
def start (states : List Node) (ctx : SendContext) (history : List BatchLog) : BatchRun where
  machine := Machine.startBatch states ctx history

def status (r : BatchRun) : BatchStatus := r.machine.log.status

/-- The calls of the batch callback. -/
def callbacks (r : BatchRun) : List (Option Error) := r.completions.filterMap BatchEnd.callback

/-- After a visit of the traversal; a message it has prepared is about to be
handed over. -/
def visited (r : BatchRun) (log : SendLog) (cursor : Cursor) (todo : List Node) : BatchRun :=
  { r with
    machine := { r.machine with todo := todo, cursor := cursor, log := log }
    sending := (log.dispatched.drop r.machine.log.dispatched.length).head? }

/-- Hand the message over to the executor. -/
def send (r : BatchRun) (d : Dispatch) : BatchRun :=
  { r with sending := none, handlers := r.handlers ++ [⟨d, .waiting⟩] }

/-- `batchStatus->allSended = true` after the traversal. -/
def setAllSended (r : BatchRun) : BatchRun :=
  { r with machine := r.machine.setAllSended, sender := some .called }

def setStage (r : BatchRun) (i : Nat) (d : Dispatch) (stage : HandlerStage) : BatchRun :=
  { r with handlers := r.handlers.set i ⟨d, stage⟩ }

def store (r : BatchRun) (i : Nat) (d : Dispatch) (reply : Reply) : BatchRun :=
  { r.setStage i d .stored with machine := r.machine.store d.contextID reply }

def count (r : BatchRun) (i : Nat) (d : Dispatch) : BatchRun :=
  { r.setStage i d (.checking .called) with machine := r.machine.count }

/-- How the batch ends with what is stored now. -/
def batchEnd (r : BatchRun) : BatchEnd :=
  endBatch r.status r.machine.states r.machine.log.ctx.keyLocks

/-- The winner of the race for `callbackExecuted` ends the batch. -/
def complete (r : BatchRun) : BatchRun :=
  { r with
    machine := { r.machine with log := { r.machine.log with
      status := { r.machine.log.status with callbackExecuted := true } } }
    completions := r.completions ++ [r.batchEnd] }

/-- One step of `checkBatch`. -/
def checkBatch (r : BatchRun) : CheckStage → BatchRun × CheckStage
  | .called => (r, if r.status.allSended then .allSended else .returned)
  | .allSended => (r, if r.status.received = r.status.total then .counted else .returned)
  | .counted => (if r.status.callbackExecuted then r else r.complete, .returned)
  | .returned => (r, .returned)

variable (env : BlockEnv) (executors : Executors)

/-- One step of one party. -/
inductive Step : BatchRun → BatchRun → Prop
  | visit {r : BatchRun} {n : Node} {rest todo : List Node} {log : SendLog} {cursor : Cursor} :
      r.machine.todo = n :: rest → r.sending = none →
      traverseStep (sendCallback env) n rest r.machine.log r.machine.cursor
        = .ok (log, cursor, todo) → Step r (r.visited log cursor todo)
  | send {r : BatchRun} {d : Dispatch} : r.sending = some d → Step r (r.send d)
  | allSended {r : BatchRun} : r.machine.todo = [] → r.sending = none → r.sender = none →
      Step r r.setAllSended
  | store {r : BatchRun} {i : Nat} {d : Dispatch} {reply : Reply} :
      r.handlers[i]? = some ⟨d, .waiting⟩ →
      executors.reply r.machine.sentBefore d.message reply → Step r (r.store i d reply)
  | count {r : BatchRun} {i : Nat} {d : Dispatch} : r.handlers[i]? = some ⟨d, .stored⟩ →
      Step r (r.count i d)
  | check {r : BatchRun} {i : Nat} {d : Dispatch} {stage : CheckStage} :
      r.handlers[i]? = some ⟨d, .checking stage⟩ → stage ≠ .returned →
      Step r ((r.checkBatch stage).1.setStage i d (.checking (r.checkBatch stage).2))
  | checkSender {r : BatchRun} {stage : CheckStage} : r.sender = some stage →
      stage ≠ .returned →
      Step r { (r.checkBatch stage).1 with sender := some (r.checkBatch stage).2 }

/-- Any number of steps. -/
def Steps : BatchRun → BatchRun → Prop := Relation.ReflTransGen (Step env executors)

/-- The traversal has ended, all replies have arrived, and nobody has a step
left. -/
def Finished (r : BatchRun) : Prop :=
  r.machine.todo = [] ∧ r.sending = none ∧ r.sender = some .returned ∧
    ∀ h ∈ r.handlers, h.stage = .checking .returned

instance (r : BatchRun) : Decidable r.Finished := by
  unfold Finished
  infer_instance

/-- Who moves next. -/
inductive Move
  | visit
  | send
  | allSended
  | store (i : Nat)
  | count (i : Nat)
  | check (i : Nat)
  | checkSender
  deriving DecidableEq, Repr

/-- Make a move if it is possible, with executors that reply by function. -/
def move (reply : List (List ExecutionMessage) → ExecutionMessage → Reply) (r : BatchRun) :
    Move → BatchRun
  | .visit =>
      match r.machine.todo, r.sending with
      | n :: rest, none =>
          match traverseStep (sendCallback env) n rest r.machine.log r.machine.cursor with
          | .ok (log, cursor, todo) => r.visited log cursor todo
          | .error _ => r
      | _, _ => r
  | .send =>
      match r.sending with
      | some d => r.send d
      | none => r
  | .allSended =>
      if r.machine.todo = [] ∧ r.sending = none ∧ r.sender = none then r.setAllSended else r
  | .store i =>
      match r.handlers[i]? with
      | some ⟨d, .waiting⟩ => r.store i d (reply r.machine.sentBefore d.message)
      | _ => r
  | .count i =>
      match r.handlers[i]? with
      | some ⟨d, .stored⟩ => r.count i d
      | _ => r
  | .check i =>
      match r.handlers[i]? with
      | some ⟨d, .checking stage⟩ =>
          if stage = .returned then r
          else (r.checkBatch stage).1.setStage i d (.checking (r.checkBatch stage).2)
      | _ => r
  | .checkSender =>
      match r.sender with
      | some stage =>
          if stage = .returned then r
          else { (r.checkBatch stage).1 with sender := some (r.checkBatch stage).2 }
      | none => r

/-- A run under a schedule. -/
def run (reply : List (List ExecutionMessage) → ExecutionMessage → Reply) (r : BatchRun)
    (schedule : List Move) : BatchRun :=
  schedule.foldl (move env reply) r

/-- A move does nothing or is a step. -/
theorem move_cases (reply : List (List ExecutionMessage) → ExecutionMessage → Reply)
    (hash : List (List ExecutionMessage) → Except Error H256) (r : BatchRun) (a : Move) :
    r.move env reply a = r ∨ Step env (.ofFun reply hash) r (r.move env reply a) := by
  cases a with
  | visit =>
      unfold move
      dsimp only
      split
      next n rest htodo hsending =>
        split
        next log cursor todo hstep => exact Or.inr (.visit htodo hsending hstep)
        next => exact Or.inl rfl
      next => exact Or.inl rfl
  | send =>
      unfold move
      dsimp only
      split
      next d hsending => exact Or.inr (.send hsending)
      next => exact Or.inl rfl
  | allSended =>
      unfold move
      dsimp only
      split_ifs with h
      · exact Or.inr (.allSended h.1 h.2.1 h.2.2)
      · exact Or.inl rfl
  | store i =>
      unfold move
      dsimp only
      split
      next d hi => exact Or.inr (.store hi rfl)
      next => exact Or.inl rfl
  | count i =>
      unfold move
      dsimp only
      split
      next d hi => exact Or.inr (.count hi)
      next => exact Or.inl rfl
  | check i =>
      unfold move
      dsimp only
      split
      next d stage hi =>
        split_ifs with hstage
        · exact Or.inl rfl
        · exact Or.inr (.check hi hstage)
      next => exact Or.inl rfl
  | checkSender =>
      unfold move
      dsimp only
      split
      next stage hsender =>
        split_ifs with hstage
        · exact Or.inl rfl
        · exact Or.inr (.checkSender hsender hstage)
      next => exact Or.inl rfl

theorem move_steps (reply : List (List ExecutionMessage) → ExecutionMessage → Reply)
    (hash : List (List ExecutionMessage) → Except Error H256) (r : BatchRun) (a : Move) :
    Steps env (.ofFun reply hash) r (r.move env reply a) := by
  rcases move_cases env reply hash r a with heq | hstep
  · rw [heq]
    exact .refl
  · exact .single hstep

/-- A scheduled run is a run. -/
theorem run_steps (reply : List (List ExecutionMessage) → ExecutionMessage → Reply)
    (hash : List (List ExecutionMessage) → Except Error H256) (r : BatchRun)
    (schedule : List Move) : Steps env (.ofFun reply hash) r (r.run env reply schedule) := by
  induction schedule generalizing r with
  | nil => exact .refl
  | cons a rest ih => exact (move_steps env reply hash r a).trans (ih _)

end BatchRun

/-! ### The traversal -/

/-- The log with other counters of the handlers. -/
def SendLog.withCounts (log : SendLog) (received : Nat) (callbackExecuted : Bool) : SendLog :=
  { log with status := { log.status with
      received := received, callbackExecuted := callbackExecuted } }

/-- The machine as if stored replies were counted and the race were not run. -/
def Machine.settled (m : Machine) : Machine :=
  { m with log := m.log.withCounts m.replied.length false }

section Traversal

variable {env : BlockEnv} {executors : Executors} {states : List Node} {ctx : SendContext}
  {log log' : SendLog} {c c' : Cursor} {n : Node} {todo rest rest' : List Node} {m : Machine}

/-- The traversal does not look at the counters of the handlers. -/
theorem sendCallback_withCounts (k : Nat) (b : Bool) (state : ExecutiveState) :
    sendCallback env (log.withCounts k b) state =
      match sendCallback env log state with
      | .error f => .error f
      | .ok (hint, log', state') => .ok (hint, log'.withCounts k b, state') := by
  have hctx : (log.withCounts k b).ctx = log.ctx := rfl
  unfold sendCallback
  rw [hctx]
  rcases startBatchCallback env log.ctx state with f | action
  · rfl
  · cases action <;> rfl

theorem traverseStep_withCounts (k : Nat) (b : Bool)
    (h : traverseStep (sendCallback env) n rest log c = .ok (log', c', rest')) :
    traverseStep (sendCallback env) n rest (log.withCounts k b) c
      = .ok (log'.withCounts k b, c', rest') := by
  unfold traverseStep at h ⊢
  split_ifs at h ⊢ with hj
  · cases h
    rfl
  · rw [sendCallback_withCounts]
    rcases hcall : sendCallback env log n.2 with f | ⟨hint, log₁, state⟩
    · rw [hcall] at h
      cases h
    · rw [hcall] at h
      cases h
      rfl

/-- The message of a state moves out when it is sent. -/
theorem Sends.sentTo {state state' : ExecutiveState} {hint : TraverseHint}
    (h : Sends env log state hint log' state') :
    log'.sentTo = log.sentTo ∨
      log'.sentTo = log.sentTo ++ [state.contextID] ∧ state'.message = none := by
  cases h with
  | send => exact Or.inr ⟨by simp [SendLog.sentTo, SendLog.sent], rfl⟩
  | erase => exact Or.inl rfl
  | _ => exact Or.inl rfl

/-- The message of a state that was sent is gone. -/
theorem SendReach.sent_message (hd : DistinctContexts states)
    (h : SendReach env states ctx log c todo) :
    ∀ k ∈ c.visited, k.2.contextID ∈ log.sentTo → k.2.message = none := by
  induction h with
  | start => simp
  | @step log log' c c' n rest rest' hreach hstep ih =>
      have hshape := hreach.shape hd.keyed hd.nodup
      have hdisj := (List.nodup_append.mp (hshape.nodup hd.nodup)).2.2
      -- no message was sent for a node ahead
      have hahead : ∀ k ∈ n :: rest, k.2.contextID ∉ log.sentTo := fun k hk hi =>
        hdisj _ (hshape.sentVisited _ hi) _ (List.mem_map.mpr ⟨k, hk, rfl⟩) rfl
      have hn := hahead n (List.mem_cons_self ..)
      intro k hk hi
      rcases sendStep_cases hstep with ⟨-, rfl, rfl, rfl⟩ | ⟨-, hint, state, hsends, heq⟩
      · rcases List.mem_append.mp hk with hk | hk
        · exact ih k hk hi
        · rw [List.mem_singleton.mp hk] at hi
          exact absurd hi hn
      · have hk' : k ∈ (c.advance hint (n.1, state) rest).1.visited := by
          rw [← heq]
          exact hk
        have hctx := hsends.contextID
        rcases hsends.sentTo with hsame | ⟨hsent, hnone⟩
        · rw [hsame] at hi
          rcases mem_advance_visited hk' with hk | rfl | hk
          · exact ih k hk hi
          · exact absurd (hctx ▸ hi) hn
          · exact absurd hi (hahead k (List.mem_cons_of_mem _ hk))
        · have hnodup := hshape.nodup hd.nodup
          rw [hsent] at hi
          have hi' : k.2.contextID ∈ log.sentTo ∨ k.2.contextID = n.2.contextID := by
            simpa using hi
          rcases mem_advance_visited hk' with hk | rfl | hk
          · refine ih k hk (hi'.resolve_right fun he => ?_)
            exact hdisj _ (List.mem_map.mpr ⟨k, hk, rfl⟩) _ (List.mem_cons_self ..) he
          · exact hnone
          · rcases hi' with hi | he
            · exact absurd hi (hahead k (List.mem_cons_of_mem _ hk))
            · -- contexts ahead are distinct
              have hrest := (List.nodup_append.mp hnodup).2.1
              exact absurd (List.mem_map.mpr ⟨k, hk, he⟩) (List.nodup_cons.mp hrest).1

/-- A visit, seen from the settled machine. -/
theorem Mid.settled_visit (hd : DistinctContexts states)
    (hm : Mid env executors states ctx m.settled) (hphase : m.phase = .batching)
    (htodo : m.todo = n :: rest)
    (h : traverseStep (sendCallback env) n rest m.log m.cursor = .ok (log', c', rest')) :
    Mid env executors states ctx
      (Machine.settled { m with todo := rest', cursor := c', log := log' }) := by
  have hstep := traverseStep_withCounts m.replied.length false h
  have hvisit : m.settled.visit env n rest
      = Machine.settled { m with todo := rest', cursor := c', log := log' } := by
    unfold Machine.visit
    rw [show m.settled.log = m.log.withCounts m.replied.length false from rfl,
      show m.settled.cursor = m.cursor from rfl, hstep]
    rfl
  rcases hm.visit hd htodo with ⟨f, log, -, -, -, hfault⟩ | ⟨log, cursor, todo, hok, hmid⟩
  · rw [hvisit] at hfault
    have hfinished : m.phase = .finished (.fault f) := congrArg Machine.phase hfault
    rw [hphase] at hfinished
    cases hfinished
  · rw [← hok, hvisit] at hmid
    exact hmid

end Traversal

namespace BatchRun

variable {env : BlockEnv} {executors : Executors} {states : List Node} {ctx : SendContext}
  {history : List BatchLog} {r r' : BatchRun}

/-! ### Messages and replies -/

/-- The books of a batch: who was sent a message, whose reply is stored and
whose is counted. -/
structure Books (env : BlockEnv) (executors : Executors) (states : List Node)
    (ctx : SendContext) (r : BatchRun) : Prop where
  phase : r.machine.phase = .batching
  mid : Mid env executors states ctx r.machine.settled
  handed : r.handlers.map Handler.dispatch ++ r.sending.toList = r.machine.log.dispatched
  received : r.status.received = r.handlers.countP Handler.counted
  replied : ∀ h ∈ r.handlers,
    h.dispatch.contextID ∈ r.machine.replied.map Prod.fst ↔ h.stage ≠ .waiting
  origin : ∀ i ∈ r.machine.replied.map Prod.fst,
    i ∈ (r.handlers.map Handler.dispatch).map Dispatch.contextID

theorem Books.start (states : List Node) (ctx : SendContext) (history : List BatchLog) :
    Books env executors states ctx (BatchRun.start states ctx history) where
  phase := rfl
  mid := Mid.start states ctx history
  handed := rfl
  received := rfl
  replied := by simp [BatchRun.start]
  origin := by simp [BatchRun.start, Machine.startBatch]

/-- The traversal behind a batch. -/
theorem Books.shape (h : Books env executors states ctx r) (hd : DistinctContexts states) :
    ∃ log c, SendShape states log c r.machine.todo ∧
      r.machine.log.dispatched = log.dispatched ∧ r.status.total = log.status.total := by
  obtain ⟨log, visited, b, hreach, -, hlog, -⟩ := h.mid.path
  have hdispatched := congrArg SendLog.dispatched hlog
  have htotal := congrArg (fun l : SendLog => l.status.total) hlog
  exact ⟨log, _, hreach.shape hd.keyed hd.nodup, hdispatched, htotal⟩

theorem Books.sentNodup (h : Books env executors states ctx r) (hd : DistinctContexts states) :
    (r.machine.log.dispatched.map Dispatch.contextID).Nodup := by
  obtain ⟨log, c, hshape, hdispatched, -⟩ := h.shape hd
  rw [hdispatched]
  exact hshape.sentNodup

theorem Books.total (h : Books env executors states ctx r) (hd : DistinctContexts states) :
    r.status.total = r.machine.log.dispatched.length := by
  obtain ⟨log, c, hshape, hdispatched, htotal⟩ := h.shape hd
  rw [hdispatched, htotal]
  exact hshape.total

/-- If the counters agree, nothing is being handed over and every reply is
counted. -/
theorem Books.all_counted (h : Books env executors states ctx r) (hd : DistinctContexts states)
    (heq : r.status.received = r.status.total) :
    r.sending = none ∧ ∀ k ∈ r.handlers, k.counted = true := by
  have hlen := congrArg List.length h.handed
  rw [← h.total hd, ← heq, h.received, List.length_append, List.length_map] at hlen
  have hle := List.countP_le_length (p := Handler.counted) (l := r.handlers)
  have hsending : r.sending.toList.length = 0 := by omega
  constructor
  · simpa using hsending
  · apply List.countP_eq_length.mp
    omega

/-- The counter compared before a reply is written. -/
theorem counted_ne_waiting {k : Handler} (h : k.counted = true) : k.stage ≠ .waiting := by
  intro hw
  simp [Handler.counted, hw] at h

/-- The contexts of the handlers and of the message being handed over are
distinct. -/
theorem Books.handlersNodup (h : Books env executors states ctx r) (hd : DistinctContexts states) :
    ((r.handlers.map Handler.dispatch ++ r.sending.toList).map Dispatch.contextID).Nodup := by
  rw [h.handed]
  exact h.sentNodup hd

/-- Moving one handler. -/
theorem handlers_split {i : Nat} {d : Dispatch} {stage : HandlerStage}
    (h : r.handlers[i]? = some ⟨d, stage⟩) :
    ∃ before after, r.handlers = before ++ ⟨d, stage⟩ :: after ∧
      ∀ stage', (r.setStage i d stage').handlers = before ++ ⟨d, stage'⟩ :: after := by
  obtain ⟨hlt, hget⟩ := List.getElem?_eq_some_iff.mp h
  refine ⟨r.handlers.take i, r.handlers.drop (i + 1), ?_, fun stage' => ?_⟩
  · rw [← hget, List.getElem_cons_drop, List.take_append_drop]
  · rw [setStage, List.set_eq_take_append_cons_drop, if_pos hlt]

theorem dispatch_setStage {i : Nat} {d : Dispatch} {stage : HandlerStage}
    (h : r.handlers[i]? = some ⟨d, stage⟩) (stage' : HandlerStage) :
    (r.setStage i d stage').handlers.map Handler.dispatch = r.handlers.map Handler.dispatch := by
  obtain ⟨before, after, hsplit, hset⟩ := handlers_split h
  rw [hset, hsplit]
  simp

/-- The others stay, and have other contexts. -/
theorem Books.setStage_cases (h : Books env executors states ctx r) (hd : DistinctContexts states)
    {i : Nat} {d : Dispatch} {stage stage' : HandlerStage}
    (hi : r.handlers[i]? = some ⟨d, stage⟩) {k : Handler}
    (hk : k ∈ (r.setStage i d stage').handlers) :
    k = ⟨d, stage'⟩ ∨ k ∈ r.handlers ∧ k.dispatch.contextID ≠ d.contextID := by
  obtain ⟨before, after, hsplit, hset⟩ := handlers_split hi
  have hnodup := h.handlersNodup hd
  rw [hsplit] at hnodup
  simp only [List.map_append, List.map_cons] at hnodup
  have hmiddle := List.nodup_middle.mp (List.nodup_append.mp hnodup).1
  have hother : ∀ k ∈ before ++ after, k.dispatch.contextID ≠ d.contextID := by
    intro k hk heq
    apply (List.nodup_cons.mp hmiddle).1
    rw [← heq, ← List.map_append, ← List.map_append]
    exact List.mem_map.mpr ⟨_, List.mem_map.mpr ⟨k, hk, rfl⟩, rfl⟩
  rw [hset] at hk
  have hk' : k = ⟨d, stage'⟩ ∨ k ∈ before ++ after := by
    simp only [List.mem_append, List.mem_cons] at hk ⊢
    tauto
  rcases hk' with rfl | hk
  · exact Or.inl rfl
  · refine Or.inr ⟨?_, hother k hk⟩
    rw [hsplit]
    simp only [List.mem_append, List.mem_cons] at hk ⊢
    tauto

theorem Books.visit (h : Books env executors states ctx r) (hd : DistinctContexts states)
    {n : Node} {rest todo : List Node} {log : SendLog} {cursor : Cursor}
    (htodo : r.machine.todo = n :: rest) (hsending : r.sending = none)
    (hstep : traverseStep (sendCallback env) n rest r.machine.log r.machine.cursor
      = .ok (log, cursor, todo)) :
    Books env executors states ctx (r.visited log cursor todo) := by
  obtain ⟨⟨new, hnew⟩, hreceived, -, -⟩ := sendStep_effect hstep
  refine ⟨h.phase, h.mid.settled_visit hd h.phase htodo hstep, ?_, ?_, h.replied, h.origin⟩
  · have hold := h.handed
    rw [hsending, Option.toList_none, List.append_nil] at hold
    simp only [visited, hnew, List.drop_left, hold]
    cases new <;> rfl
  · exact hreceived.trans h.received

theorem Books.send (h : Books env executors states ctx r) (hd : DistinctContexts states)
    {d : Dispatch} (hsending : r.sending = some d) :
    Books env executors states ctx (r.send d) := by
  have hhanded := h.handed
  rw [hsending, Option.toList_some] at hhanded
  refine ⟨h.phase, h.mid, ?_, ?_, ?_, ?_⟩
  · simpa [BatchRun.send] using hhanded
  · show r.status.received = _
    rw [h.received, BatchRun.send, List.countP_append]
    rfl
  · intro k hk
    rcases List.mem_append.mp hk with hk | hk
    · exact h.replied k hk
    · -- a reply of its context would be that of another message
      rw [List.mem_singleton.mp hk]
      refine ⟨fun hi => ?_, fun hne => absurd rfl hne⟩
      have hnodup := h.handlersNodup hd
      rw [hsending, List.map_append] at hnodup
      exact absurd rfl ((List.nodup_append.mp hnodup).2.2 _ (h.origin _ hi) _
        (List.mem_singleton.mpr rfl))
  · intro i hi
    simp only [BatchRun.send, List.map_append, List.mem_append]
    exact Or.inl (h.origin i hi)

theorem Books.store (h : Books env executors states ctx r) (hd : DistinctContexts states)
    {i : Nat} {d : Dispatch} {reply : Reply} (hi : r.handlers[i]? = some ⟨d, .waiting⟩)
    (hreply : executors.reply r.machine.sentBefore d.message reply) :
    Books env executors states ctx (r.store i d reply) := by
  have hmem := List.mem_of_getElem? hi
  have hdisp : d ∈ r.machine.log.dispatched := by
    rw [← h.handed]
    exact List.mem_append_left _ (List.mem_map.mpr ⟨_, hmem, rfl⟩)
  have hnew : d.contextID ∉ r.machine.replied.map Prod.fst := fun hin =>
    (h.replied _ hmem).mp hin rfl
  have hmid := h.mid.receive hd (d := d) (r := reply) hdisp hnew hreply
  have hsettled : (r.machine.store d.contextID reply).settled
      = r.machine.settled.receive d.contextID reply := by
    simp [Machine.settled, Machine.store, Machine.receive, SendLog.withCounts]
  have hdispatch := dispatch_setStage hi .stored
  refine ⟨h.phase, hsettled ▸ hmid, ?_, ?_, ?_, ?_⟩
  · show (r.setStage i d .stored).handlers.map Handler.dispatch ++ r.sending.toList = _
    rw [hdispatch]
    exact h.handed
  · obtain ⟨before, after, hsplit, hset⟩ := handlers_split hi
    show r.status.received = (r.setStage i d .stored).handlers.countP Handler.counted
    rw [h.received, hset, hsplit]
    simp [Handler.counted]
  · intro k hk
    simp only [BatchRun.store, Machine.store, List.map_append, List.map_cons, List.map_nil,
      List.mem_append, List.mem_singleton]
    rcases h.setStage_cases hd hi hk with rfl | ⟨hold, hne⟩
    · simp
    · rw [← h.replied k hold]
      simp [hne]
  · intro j hj
    show j ∈ ((r.setStage i d .stored).handlers.map Handler.dispatch).map Dispatch.contextID
    rw [hdispatch]
    simp only [BatchRun.store, Machine.store, List.map_append, List.map_cons, List.map_nil,
      List.mem_append, List.mem_singleton] at hj
    rcases hj with hj | rfl
    · exact h.origin j hj
    · exact List.mem_map.mpr ⟨d, List.mem_map.mpr ⟨_, hmem, rfl⟩, rfl⟩

/-- A handler that has its reply moves on; `counted` tells whether it counts
the reply in this step. -/
theorem Books.advance (h : Books env executors states ctx r) (hd : DistinctContexts states)
    {i : Nat} {d : Dispatch} {stage : HandlerStage} {stage' : CheckStage}
    (hi : r.handlers[i]? = some ⟨d, stage⟩) (hstage : stage ≠ .waiting) {m : Machine}
    (hm : m.settled = r.machine.settled) (hreplied : m.replied = r.machine.replied)
    (hreceived : m.log.status.received
      = r.status.received + if stage = .stored then 1 else 0) :
    Books env executors states ctx { r.setStage i d (.checking stage') with machine := m } := by
  have hdispatch := dispatch_setStage hi (.checking stage')
  refine ⟨?_, hm ▸ h.mid, ?_, ?_, ?_, ?_⟩
  · have hphase := congrArg Machine.phase hm
    exact hphase.trans h.phase
  · have hlog := congrArg (fun m : Machine => m.log.dispatched) hm
    show (r.setStage i d _).handlers.map Handler.dispatch ++ r.sending.toList = m.log.dispatched
    rw [hdispatch, h.handed]
    exact hlog.symm
  · obtain ⟨before, after, hsplit, hset⟩ := handlers_split hi
    show m.log.status.received = (r.setStage i d _).handlers.countP Handler.counted
    rw [hreceived, h.received, hset, hsplit]
    cases stage with
    | waiting => exact absurd rfl hstage
    | stored => simp [List.countP_cons, Handler.counted, Nat.add_assoc]
    | checking stage => simp [List.countP_cons, Handler.counted]
  · intro k hk
    show _ ∈ m.replied.map Prod.fst ↔ _
    rw [hreplied]
    rcases h.setStage_cases hd hi hk with rfl | ⟨hold, -⟩
    · have hwas := h.replied _ (List.mem_of_getElem? hi)
      simp only [ne_eq, hstage, not_false_eq_true, iff_true] at hwas
      simp [hwas]
    · exact h.replied k hold
  · show ∀ j ∈ m.replied.map Prod.fst,
      j ∈ ((r.setStage i d _).handlers.map Handler.dispatch).map Dispatch.contextID
    rw [hreplied, hdispatch]
    exact h.origin

/-! ### Who ends the batch -/

/-- Where those in `checkBatch` are. -/
def stages (r : BatchRun) : List CheckStage :=
  r.sender.toList ++ r.handlers.filterMap Handler.checkStage

/-- `checkBatch` finds the batch complete. -/
def Ready (r : BatchRun) : Prop :=
  r.status.allSended = true ∧ r.status.received = r.status.total

/-- Invariant of a batch. -/
structure Inv (env : BlockEnv) (executors : Executors) (states : List Node)
    (ctx : SendContext) (r : BatchRun) : Prop extends Books env executors states ctx r where
  ended : r.status.allSended = true → r.machine.todo = [] ∧ r.sending = none
  sender : r.sender ≠ none → r.status.allSended = true
  reading : ∀ stage ∈ r.stages, (stage = .allSended → r.status.allSended = true) ∧
    (stage = .counted → r.Ready)
  once : r.completions = if r.status.callbackExecuted then [r.batchEnd] else []
  ready : r.status.callbackExecuted = true → r.Ready
  /-- Whoever sees the batch complete has not left yet. -/
  live : r.Ready → r.status.callbackExecuted = false →
    r.sender = none ∨ ∃ stage ∈ r.stages, stage ≠ .returned

theorem Inv.start (states : List Node) (ctx : SendContext) (history : List BatchLog) :
    Inv env executors states ctx (BatchRun.start states ctx history) where
  toBooks := Books.start states ctx history
  ended := fun h => by cases h
  sender := fun h => absurd rfl h
  reading := by simp [stages, BatchRun.start]
  once := rfl
  ready := fun h => by cases h
  live := fun h => by cases h.1

/-- As long as somebody is on the way, the batch is not complete. -/
theorem Inv.not_executed (h : Inv env executors states ctx r) (hnot : ¬ r.Ready) :
    r.status.callbackExecuted = false := by
  by_contra hex
  exact hnot (h.ready (by simpa using hex))

theorem Inv.completions_nil (h : Inv env executors states ctx r) (hnot : ¬ r.Ready) :
    r.completions = [] := by
  rw [h.once, h.not_executed hnot]
  rfl

theorem Inv.not_ready (h : Inv env executors states ctx r) (hd : DistinctContexts states)
    {k : Handler} (hk : k ∈ r.handlers) (hcounted : k.counted = false) : ¬ r.Ready := by
  intro hready
  have hall := (h.all_counted hd hready.2).2 k hk
  rw [hcounted] at hall
  cases hall

theorem Inv.visit (h : Inv env executors states ctx r) (hd : DistinctContexts states)
    {n : Node} {rest todo : List Node} {log : SendLog} {cursor : Cursor}
    (htodo : r.machine.todo = n :: rest) (hsending : r.sending = none)
    (hstep : traverseStep (sendCallback env) n rest r.machine.log r.machine.cursor
      = .ok (log, cursor, todo)) :
    Inv env executors states ctx (r.visited log cursor todo) := by
  obtain ⟨-, -, hexecuted, hall⟩ := sendStep_effect hstep
  -- a node is ahead, so nobody has been told that everything is sent
  have hopen : ¬ r.status.allSended = true := fun ha => by
    have := (h.ended ha).1
    rw [htodo] at this
    cases this
  have hnot : ¬ r.Ready := fun hr => hopen hr.1
  have hsender : r.sender = none := by
    by_contra hne
    exact hopen (h.sender hne)
  have hfalse : log.status.callbackExecuted = false := hexecuted.trans (h.not_executed hnot)
  refine ⟨h.toBooks.visit hd htodo hsending hstep, fun ha => ?_, fun hne => absurd hsender hne,
    fun stage hstage => ?_, ?_, fun hex => ?_, fun _ _ => Or.inl hsender⟩
  · rcases hall with hall | ⟨hrest, hsame⟩
    · exact absurd (hall.symm.trans ha) hopen
    · exact ⟨hrest, by simp [visited, hsame]⟩
  · have hold := h.reading stage hstage
    exact ⟨fun he => absurd (hold.1 he) hopen, fun he => absurd (hold.2 he) hnot⟩
  · show r.completions = if log.status.callbackExecuted then _ else _
    rw [hfalse, h.completions_nil hnot]
    rfl
  · have hex' : log.status.callbackExecuted = true := hex
    rw [hfalse] at hex'
    cases hex'

theorem Inv.send (h : Inv env executors states ctx r) (hd : DistinctContexts states)
    {d : Dispatch} (hsending : r.sending = some d) :
    Inv env executors states ctx (r.send d) := by
  have hopen : ¬ r.status.allSended = true := fun ha => by
    have := (h.ended ha).2
    rw [hsending] at this
    cases this
  have hstages : (r.send d).stages = r.stages := by
    simp [stages, BatchRun.send, Handler.checkStage]
  refine ⟨h.toBooks.send hd hsending, fun ha => absurd ha hopen, h.sender, ?_, h.once, h.ready,
    fun hr => absurd hr.1 hopen⟩
  rw [hstages]
  exact h.reading

theorem Inv.setAllSended (h : Inv env executors states ctx r) (htodo : r.machine.todo = [])
    (hsending : r.sending = none) : Inv env executors states ctx r.setAllSended := by
  refine ⟨⟨h.phase, h.mid.setAllSended htodo, h.handed, h.received, h.replied, h.origin⟩,
    fun _ => ⟨htodo, hsending⟩, fun _ => rfl, ?_, h.once, fun hex => ⟨rfl, (h.ready hex).2⟩,
    fun _ _ => Or.inr ⟨.called, List.mem_cons_self .., by decide⟩⟩
  intro stage hstage
  refine ⟨fun _ => rfl, fun he => ⟨rfl, ?_⟩⟩
  rcases List.mem_cons.mp hstage with rfl | hstage
  · cases he
  · exact ((h.reading stage (List.mem_append_right _ hstage)).2 he).2

theorem stages_setStage {i : Nat} {d : Dispatch} {stage : HandlerStage}
    (h : r.handlers[i]? = some ⟨d, stage⟩) (stage' : HandlerStage) {s : CheckStage}
    (hs : s ∈ (r.setStage i d stage').stages) :
    stage' = .checking s ∨ s ∈ r.stages := by
  obtain ⟨before, after, hsplit, hset⟩ := handlers_split h
  simp only [stages, hset, hsplit, List.filterMap_append, List.mem_append, List.mem_filterMap,
    List.mem_cons] at hs ⊢
  rcases hs with hs | hs | ⟨k, rfl | hk, hs⟩
  · exact Or.inr (Or.inl hs)
  · exact Or.inr (Or.inr (Or.inl hs))
  · left
    cases stage' with
    | checking _ => simpa [Handler.checkStage] using hs
    | _ => cases hs
  · exact Or.inr (Or.inr (Or.inr ⟨k, Or.inr hk, hs⟩))

theorem mem_stages_setStage {i : Nat} {d : Dispatch} {stage : HandlerStage}
    (h : r.handlers[i]? = some ⟨d, stage⟩) (s : CheckStage) :
    s ∈ (r.setStage i d (.checking s)).stages := by
  obtain ⟨before, after, hsplit, hset⟩ := handlers_split h
  simp [stages, hset, Handler.checkStage]

theorem Inv.store (h : Inv env executors states ctx r) (hd : DistinctContexts states)
    {i : Nat} {d : Dispatch} {reply : Reply} (hi : r.handlers[i]? = some ⟨d, .waiting⟩)
    (hreply : executors.reply r.machine.sentBefore d.message reply) :
    Inv env executors states ctx (r.store i d reply) := by
  have hnot : ¬ r.Ready := h.not_ready hd (List.mem_of_getElem? hi) rfl
  refine ⟨h.toBooks.store hd hi hreply, fun ha => ?_, h.sender, fun stage hstage => ?_, ?_,
    fun hex => absurd (h.ready hex) hnot, fun hr => absurd hr hnot⟩
  · obtain ⟨htodo, hsending⟩ := h.ended ha
    exact ⟨by simp [BatchRun.store, Machine.store, htodo], hsending⟩
  · rcases stages_setStage hi .stored hstage with he | hold
    · cases he
    · exact h.reading stage hold
  · show r.completions = if r.status.callbackExecuted then _ else _
    rw [h.not_executed hnot, h.completions_nil hnot]
    rfl

theorem Inv.count (h : Inv env executors states ctx r) (hd : DistinctContexts states)
    {i : Nat} {d : Dispatch} (hi : r.handlers[i]? = some ⟨d, .stored⟩) :
    Inv env executors states ctx (r.count i d) := by
  have hnot : ¬ r.Ready := h.not_ready hd (List.mem_of_getElem? hi) rfl
  refine ⟨h.toBooks.advance hd hi (by simp) rfl rfl rfl, h.ended, h.sender,
    fun stage hstage => ?_, ?_, fun hex => absurd (h.ready hex) hnot,
    fun _ _ => Or.inr ⟨.called, mem_stages_setStage hi .called, by decide⟩⟩
  · rcases stages_setStage hi (.checking .called) hstage with he | hold
    · cases he
      exact ⟨fun he => (by cases he), fun he => (by cases he)⟩
    · have hread := h.reading stage hold
      exact ⟨hread.1, fun he => absurd (hread.2 he) hnot⟩
  · show r.completions = if r.status.callbackExecuted then _ else _
    rw [h.not_executed hnot, h.completions_nil hnot]
    rfl

theorem Inv.complete (h : Inv env executors states ctx r) (hready : r.Ready)
    (hfirst : r.status.callbackExecuted = false) : Inv env executors states ctx r.complete := by
  refine ⟨⟨h.phase, h.mid, h.handed, h.received, h.replied, h.origin⟩, h.ended, h.sender,
    h.reading, ?_, fun _ => hready, fun _ hnot => by cases hnot⟩
  show r.completions ++ [r.batchEnd] = [r.batchEnd]
  rw [h.once, hfirst]
  rfl

/-- A step of `checkBatch` keeps the invariant, reads what is there, and leaves
a complete batch only to somebody else. -/
theorem Inv.checkBatch (h : Inv env executors states ctx r) {stage : CheckStage}
    (hstage : stage ∈ r.stages) :
    Inv env executors states ctx (r.checkBatch stage).1 ∧
      ((r.checkBatch stage).2 = .allSended → r.status.allSended = true) ∧
      ((r.checkBatch stage).2 = .counted → (r.checkBatch stage).1.Ready) ∧
      (stage ≠ .returned → (r.checkBatch stage).1.Ready →
        (r.checkBatch stage).1.status.callbackExecuted = false →
        (r.checkBatch stage).2 ≠ .returned) := by
  cases stage with
  | called =>
      refine ⟨h, fun he => ?_, fun he => ?_, fun _ hr _ => ?_⟩ <;>
        simp only [BatchRun.checkBatch] at *
      · by_contra hne
        simp [hne] at he
      · split_ifs at he
      · simp [hr.1]
  | allSended =>
      have hall := (h.reading _ hstage).1 rfl
      refine ⟨h, fun he => hall, fun he => ⟨hall, ?_⟩, fun _ hr _ => ?_⟩ <;>
        simp only [BatchRun.checkBatch] at *
      · by_contra hne
        simp [hne] at he
      · simp [hr.2]
  | counted =>
      have hready := (h.reading _ hstage).2 rfl
      have hout : (r.checkBatch .counted).2 = .returned := rfl
      rw [hout]
      by_cases hex : r.status.callbackExecuted = true
      · have hlost : (r.checkBatch .counted).1 = r := if_pos hex
        rw [hlost, hex]
        exact ⟨h, nofun, nofun, nofun⟩
      · have hwon : (r.checkBatch .counted).1 = r.complete := if_neg hex
        rw [hwon]
        exact ⟨h.complete hready (by simpa using hex), nofun, nofun, nofun⟩
  | returned =>
      exact ⟨h, fun he => (by cases he), fun he => (by cases he), fun hne => absurd rfl hne⟩

/-- Everything but the winner's flag stays in a step of `checkBatch`. -/
theorem checkBatch_frame (r : BatchRun) (stage : CheckStage) :
    (r.checkBatch stage).1.handlers = r.handlers ∧ (r.checkBatch stage).1.sender = r.sender ∧
      (r.checkBatch stage).1.status.allSended = r.status.allSended := by
  cases stage with
  | counted =>
      unfold BatchRun.checkBatch
      dsimp only
      split_ifs <;> exact ⟨rfl, rfl, rfl⟩
  | _ => exact ⟨rfl, rfl, rfl⟩

theorem Inv.check (h : Inv env executors states ctx r) (hd : DistinctContexts states)
    {i : Nat} {d : Dispatch} {stage : CheckStage}
    (hi : r.handlers[i]? = some ⟨d, .checking stage⟩) (hstage : stage ≠ .returned) :
    Inv env executors states ctx
      ((r.checkBatch stage).1.setStage i d (.checking (r.checkBatch stage).2)) := by
  have hmem : stage ∈ r.stages := by
    apply List.mem_append_right
    exact List.mem_filterMap.mpr ⟨_, List.mem_of_getElem? hi, rfl⟩
  obtain ⟨hinv, hsended, hcounted, hleft⟩ := h.checkBatch hmem
  obtain ⟨hhandlers, -, hall⟩ := checkBatch_frame r stage
  rw [← hhandlers] at hi
  refine ⟨hinv.toBooks.advance hd hi (by simp) rfl rfl rfl, hinv.ended, hinv.sender,
    fun s hs => ?_, hinv.once, hinv.ready,
    fun hr hex => Or.inr ⟨_, mem_stages_setStage hi _, hleft hstage hr hex⟩⟩
  rcases stages_setStage hi _ hs with he | hold
  · cases he
    exact ⟨fun he => hall.trans (hsended he), hcounted⟩
  · exact hinv.reading s hold

theorem Inv.checkSender (h : Inv env executors states ctx r) {stage : CheckStage}
    (hsender : r.sender = some stage) (hstage : stage ≠ .returned) :
    Inv env executors states ctx
      { (r.checkBatch stage).1 with sender := some (r.checkBatch stage).2 } := by
  have hmem : stage ∈ r.stages := by simp [stages, hsender]
  obtain ⟨hinv, hsended, hcounted, hleft⟩ := h.checkBatch hmem
  obtain ⟨hhandlers, hsame, hall⟩ := checkBatch_frame r stage
  have hsender' : (r.checkBatch stage).1.sender ≠ none := by
    rw [hsame, hsender]
    exact Option.some_ne_none _
  refine ⟨⟨hinv.phase, hinv.mid, hinv.handed, hinv.received, hinv.replied, hinv.origin⟩,
    hinv.ended, fun _ => hinv.sender hsender', fun s hs => ?_, hinv.once, hinv.ready,
    fun hr hex => Or.inr ⟨_, List.mem_cons_self .., hleft hstage hr hex⟩⟩
  rcases List.mem_cons.mp hs with rfl | hs
  · exact ⟨fun he => hall.trans (hsended he), hcounted⟩
  · exact hinv.reading s (List.mem_append_right _ hs)

theorem Step.inv (hd : DistinctContexts states) (hstep : Step env executors r r')
    (h : Inv env executors states ctx r) : Inv env executors states ctx r' := by
  cases hstep with
  | visit htodo hsending hstep => exact h.visit hd htodo hsending hstep
  | send hsending => exact h.send hd hsending
  | allSended htodo hsending _ => exact h.setAllSended htodo hsending
  | store hi hreply => exact h.store hd hi hreply
  | count hi => exact h.count hd hi
  | check hi hstage => exact h.check hd hi hstage
  | checkSender hsender hstage => exact h.checkSender hsender hstage

theorem Steps.inv (hd : DistinctContexts states) (hsteps : Steps env executors r r')
    (h : Inv env executors states ctx r) : Inv env executors states ctx r' := by
  induction hsteps with
  | refl => exact h
  | tail _ hstep ih => exact hstep.inv hd ih

/-! ### The moment of completion -/

/-- The state holds what its reply handler writes. -/
def HoldsReply (state : ExecutiveState) : Reply → Prop
  | .error e => state.error = some e ∧ state.message = none
  | .null => state.message = none
  | .message m => state.message = some m

theorem holdsReply_storeReply {state : ExecutiveState} (hnone : state.message = none)
    (reply : Reply) : HoldsReply (storeReply reply state) reply := by
  cases reply with
  | error e => exact ⟨rfl, rfl⟩
  | null => exact hnone
  | message m => exact rfl

/-- The reply to a message is in its state. -/
def ReplyStored (executors : Executors) (r : BatchRun) (d : Dispatch) : Prop :=
  ∃ reply, executors.reply r.machine.sentBefore d.message reply ∧
    ∃ n ∈ r.machine.states, n.2.contextID = d.contextID ∧ HoldsReply n.2 reply

theorem Books.replyStored (h : Books env executors states ctx r) (hd : DistinctContexts states)
    {k : Handler} (hk : k ∈ r.handlers) (hstage : k.stage ≠ .waiting) :
    ReplyStored executors r k.dispatch := by
  obtain ⟨p, hp, hctx⟩ := List.mem_map.mp ((h.replied k hk).mpr hstage)
  obtain ⟨d, hdisp, hctx', hreply⟩ := h.mid.replies p hp
  have hk' : k.dispatch ∈ r.machine.log.dispatched := by
    rw [← h.handed]
    exact List.mem_append_left _ (List.mem_map.mpr ⟨k, hk, rfl⟩)
  -- the reply is the one to this message, because contexts are sent to once
  obtain rfl : d = k.dispatch :=
    List.inj_on_of_nodup_map (h.sentNodup hd) hdisp hk' (hctx'.trans hctx)
  obtain ⟨log, visited, b, hreach, hvisited, hlog, -⟩ := h.mid.path
  have hshape := hreach.shape hd.keyed hd.nodup
  have hsent : k.dispatch.contextID ∈ log.sentTo := by
    rw [hlog] at hdisp
    exact List.mem_map.mpr ⟨k.dispatch, hdisp, rfl⟩
  obtain ⟨n, hn, hnctx⟩ := List.mem_map.mp (hshape.sentVisited _ hsent)
  have hnone := hreach.sent_message hd n hn (hnctx ▸ hsent)
  have hwritten : applyReplies r.machine.replied n = (n.1, storeReply p.2 n.2) := by
    apply applyReplies_of_mem h.mid.repliedNodup
    rw [hnctx, ← hctx]
    exact hp
  refine ⟨p.2, hreply, (n.1, storeReply p.2 n.2), ?_, ?_, holdsReply_storeReply hnone p.2⟩
  · apply List.mem_append_left
    have hvis : r.machine.cursor.visited = visited.map (applyReplies r.machine.replied) := hvisited
    rw [hvis, ← hwritten]
    exact List.mem_map.mpr ⟨n, hn, rfl⟩
  · exact (storeReply_sameFrame p.2 n.2).contextID.trans hnctx

/-- A complete batch has nothing left to send and all its replies. -/
theorem Inv.complete_of_ready (h : Inv env executors states ctx r) (hd : DistinctContexts states)
    (hready : r.Ready) : r.machine.todo = [] ∧ r.sending = none ∧
      ∀ d ∈ r.machine.log.dispatched, ReplyStored executors r d := by
  obtain ⟨htodo, hsending⟩ := h.ended hready.1
  refine ⟨htodo, hsending, fun d hdisp => ?_⟩
  rw [← h.handed, hsending, Option.toList_none, List.append_nil] at hdisp
  obtain ⟨k, hk, rfl⟩ := List.mem_map.mp hdisp
  exact h.replyStored hd hk (counted_ne_waiting ((h.all_counted hd hready.2).2 k hk))

theorem Ready.checkBatch (hready : r.Ready) (stage : CheckStage) :
    (r.checkBatch stage).1.Ready ∧
      (r.checkBatch stage).1.machine.log.dispatched = r.machine.log.dispatched := by
  cases stage with
  | counted =>
      unfold BatchRun.checkBatch
      dsimp only
      split_ifs <;> exact ⟨hready, rfl⟩
  | _ => exact ⟨hready, rfl⟩

/-- Nothing is sent any more when the batch was found complete. -/
theorem Step.ready (hd : DistinctContexts states) (h : Inv env executors states ctx r)
    (hstep : Step env executors r r') (hready : r.Ready) :
    r'.Ready ∧ r'.machine.log.dispatched = r.machine.log.dispatched := by
  obtain ⟨htodo, hsending⟩ := h.ended hready.1
  cases hstep with
  | visit htodo' _ _ =>
      rw [htodo] at htodo'
      cases htodo'
  | send hsending' =>
      rw [hsending] at hsending'
      cases hsending'
  | allSended _ _ _ => exact ⟨⟨rfl, hready.2⟩, rfl⟩
  | store hi _ => exact absurd hready (h.not_ready hd (List.mem_of_getElem? hi) rfl)
  | count hi => exact absurd hready (h.not_ready hd (List.mem_of_getElem? hi) rfl)
  | @check _ _ stage _ _ => exact hready.checkBatch stage
  | @checkSender stage _ _ => exact hready.checkBatch stage

theorem Steps.dispatched_of_ready (hd : DistinctContexts states)
    (h : Inv env executors states ctx r) (hsteps : Steps env executors r r')
    (hready : r.Ready) : r'.machine.log.dispatched = r.machine.log.dispatched := by
  have hall : r'.Ready ∧ r'.machine.log.dispatched = r.machine.log.dispatched := by
    induction hsteps with
    | refl => exact ⟨hready, rfl⟩
    | tail hsteps hstep ih =>
        obtain ⟨hready', hsame⟩ := hstep.ready hd (Steps.inv hd hsteps h) ih.1
        exact ⟨hready', hsame.trans ih.2⟩
  exact hall.2

/-- Only the winner of the race adds a completion, and it has found the batch
complete. -/
theorem Step.ready_of_completions (h : Inv env executors states ctx r)
    (hstep : Step env executors r r') (hne : r'.completions ≠ r.completions) : r.Ready := by
  cases hstep with
  | @check _ _ stage hi _ =>
      cases stage with
      | counted =>
          apply (h.reading .counted _).2 rfl
          apply List.mem_append_right
          exact List.mem_filterMap.mpr ⟨_, List.mem_of_getElem? hi, rfl⟩
      | _ => exact absurd rfl hne
  | @checkSender stage hsender _ =>
      cases stage with
      | counted => exact (h.reading .counted (by simp [stages, hsender])).2 rfl
      | _ => exact absurd rfl hne
  | _ => exact absurd rfl hne

/-- Everybody has left, so somebody has won the race. -/
theorem Inv.executed_of_finished (h : Inv env executors states ctx r)
    (hd : DistinctContexts states) (hfin : r.Finished) : r.status.callbackExecuted = true := by
  obtain ⟨-, hsending, hsender, hleft⟩ := hfin
  have hready : r.Ready := by
    refine ⟨h.sender (by rw [hsender]; exact Option.some_ne_none _), ?_⟩
    have hcount : r.handlers.countP Handler.counted = r.handlers.length := by
      apply List.countP_eq_length.mpr
      intro k hk
      simp [Handler.counted, hleft k hk]
    have hlen := congrArg List.length h.handed
    rw [hsending, Option.toList_none, List.append_nil, List.length_map] at hlen
    rw [h.received, hcount, h.total hd, hlen]
  by_contra hnot
  rcases h.live hready (by simpa using hnot) with hnone | ⟨stage, hstage, hne⟩
  · rw [hsender] at hnone
    cases hnone
  · rcases List.mem_append.mp hstage with hs | hs
    · rw [hsender] at hs
      exact hne (List.mem_singleton.mp hs)
    · obtain ⟨k, hk, hks⟩ := List.mem_filterMap.mp hs
      rw [Handler.checkStage, hleft k hk] at hks
      exact hne (Option.some.inj hks).symm

/-- **A batch completes once, and only when complete.**  In every interleaving
of the sender with the reply handlers the batch callback is called at most once;
when everybody has left it was called exactly once, unless the pass over the
states has thrown; and when the batch is completed, nothing is left to be sent,
now or later, and every reply is stored. -/
theorem batch_completes_once (hd : DistinctContexts states)
    (hsteps : Steps env executors (BatchRun.start states ctx history) r) :
    r.callbacks.length ≤ 1 ∧
    (r.Finished → (r.callbacks.length = 1 ↔ ∀ f, r.batchEnd ≠ .fault f)) ∧
    ∀ r', Step env executors r r' → r'.completions ≠ r.completions →
      r.machine.todo = [] ∧ r.sending = none ∧
      (∀ d ∈ r.machine.log.dispatched, ReplyStored executors r d) ∧
      ∀ r'', Steps env executors r' r'' →
        r''.machine.log.dispatched = r.machine.log.dispatched := by
  have hinv : Inv env executors states ctx r := Steps.inv hd hsteps (.start states ctx history)
  refine ⟨?_, fun hfin => ?_, fun r' hstep hne => ?_⟩
  · have hle := List.length_filterMap_le BatchEnd.callback r.completions
    refine hle.trans ?_
    rw [hinv.once]
    split_ifs <;> simp
  · have hone : r.completions = [r.batchEnd] := by
      rw [hinv.once, hinv.executed_of_finished hd hfin]
      rfl
    rw [callbacks, hone]
    rcases r.batchEnd with e | f | ⟨states', keyLocks, victims⟩ <;>
      simp [List.filterMap_cons, BatchEnd.callback]
  · have hready := hstep.ready_of_completions hinv hne
    obtain ⟨htodo, hsending, hstored⟩ := hinv.complete_of_ready hd hready
    refine ⟨htodo, hsending, hstored, fun r'' hsteps' => ?_⟩
    exact Steps.dispatched_of_ready hd hinv (Relation.ReflTransGen.head hstep hsteps') hready

/-- The first batch of a block of calls in the plain environment. -/
def plainBatch (contracts : List String)
    (reply : List (List ExecutionMessage) → ExecutionMessage → Reply) (schedule : List Move) :
    BatchRun :=
  (start (blockStates plainEnv (callsTo contracts)).1 (initialContext (callsTo contracts)) []).run
    (plainEnv.blockEnv (callsTo contracts)) reply schedule

theorem plainBatch_steps (contracts : List String)
    (reply : List (List ExecutionMessage) → ExecutionMessage → Reply) (schedule : List Move) :
    Steps (plainEnv.blockEnv (callsTo contracts)) (.ofFun reply plainRoot)
      (start (blockStates plainEnv (callsTo contracts)).1 (initialContext (callsTo contracts)) [])
      (plainBatch contracts reply schedule) :=
  run_steps _ reply plainRoot _ schedule

/-- The last reply and the end of the traversal both find the batch complete. -/
def racing : List Move :=
  [.visit, .send, .visit, .store 0, .count 0, .send, .store 1, .check 0, .allSended, .count 1,
    .checkSender, .check 1, .check 1, .checkSender, .check 1, .checkSender]

/-- Two calls whose handlers race with the sender. -/
theorem batch_completes_once_two_calls :
    (plainBatch ["a", "b"] finishing racing).callbacks.length = 1 := by
  have h := batch_completes_once (distinct_blockStates plainEnv (callsTo ["a", "b"]))
    (plainBatch_steps ["a", "b"] finishing racing)
  refine (h.2.1 (by decide +kernel)).mpr fun f hf => ?_
  have hok : (plainBatch ["a", "b"] finishing racing).batchEnd.callback = some none := by
    decide +kernel
  rw [hf] at hok
  cases hok

/-- Executors that leave two calls with the same key of the same contract. -/
def colliding (_ : List (List ExecutionMessage)) (message : ExecutionMessage) : Reply :=
  .message { message with type := .MESSAGE, fromAddr := "c", toAddr := "d", keyLocks := ["k"] }

/-- All replies have arrived and everybody has left, but the pass has thrown and
the callback was never called. -/
theorem batch_without_callback :
    ∃ r, Steps (plainEnv.blockEnv (callsTo ["a", "b"])) (.ofFun colliding plainRoot)
        (start (blockStates plainEnv (callsTo ["a", "b"])).1
          (initialContext (callsTo ["a", "b"])) []) r ∧
      r.Finished ∧ r.machine.log.dispatched.length = 2 ∧ r.callbacks = [] := by
  refine ⟨plainBatch ["a", "b"] colliding
    [.visit, .send, .visit, .send, .allSended, .store 0, .count 0, .store 1, .count 1,
      .checkSender, .checkSender, .checkSender, .check 0, .check 0, .check 0, .check 1, .check 1,
      .check 1], plainBatch_steps _ _ _, ?_, ?_, ?_⟩
  · decide +kernel
  · decide +kernel
  · decide +kernel

end BatchRun

end BcosScheduler
