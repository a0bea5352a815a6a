/-
BcosScheduler/Machine.lean

`BlockExecutive::DMTExecute` as a machine: batches of `startBatch` and
`checkBatch` until no executive state is left, then the state root.

A batch is a traversal that sends messages (`visit`), the replies of the
executors in any order, also in the middle of the traversal (`reply`), and the
completion by whoever finds everything sent and received (`checkBatch`).  A
reply handler writes into the map, counts and checks in one step, and
`batchGetHashes` answers once, as it does when its handlers are atomic;
`BcosScheduler.CollectedExecution` takes them apart.
-/
import BcosScheduler.Batch

namespace BcosScheduler

/-- `BatchStatus` without its continuation. -/
structure BatchStatus where
  total : Nat := 0
  received : Nat := 0
  error : Nat := 0
  callbackExecuted : Bool := false
  allSended : Bool := false
  deriving DecidableEq, Repr

/-- What the traversal of `startBatch` has changed so far; `erased` are the
states whose transaction it finished. -/
structure SendLog where
  ctx : SendContext
  status : BatchStatus := {}
  dispatched : List Dispatch := []
  erased : List ExecutiveState := []
  deriving DecidableEq, Repr

/-- The callback of `startBatch` with its bookkeeping. -/
def sendCallback (env : BlockEnv) : TraverseCallback SendLog := fun log state =>
  match startBatchCallback env log.ctx state with
  | .error f => .error f
  | .ok .error =>
      .ok (.END, { log with status := { log.status with
        allSended := true, error := log.status.error + 1 } }, state)
  | .ok (.skip state) => .ok (.SKIP, log, state)
  | .ok (.wait ctx state) => .ok (.PASS, { log with ctx := ctx }, state)
  | .ok (.erase ctx) => .ok (.DELETE, { log with ctx := ctx, erased := log.erased ++ [state] }, state)
  | .ok (.send ctx state dispatch) =>
      .ok (.PASS, { log with ctx := ctx
                             status := { log.status with total := log.status.total + 1 }
                             dispatched := log.dispatched ++ [dispatch] }, state)

/-- How a completed batch ends: with an error, a fault, or with the states and
locks for the next one. -/
inductive BatchEnd
  | error (error : Error)
  | fault (fault : Fault)
  | next (states : List Node) (keyLocks : GraphKeyLocks) (victims : List ContextID)
  deriving DecidableEq

/-- A pass of `checkBatch` over the states. -/
def runPass (callback : TraverseCallback PassContext) (states : List Node)
    (keyLocks : GraphKeyLocks) : BatchEnd :=
  match traverseExecutive callback states { keyLocks := keyLocks } with
  | .error f => .fault f
  | .ok (states', ctx) => .next states' ctx.keyLocks ctx.victims

/-- What `checkBatch` does once a batch is complete. -/
def endBatch (status : BatchStatus) (states : List Node) (keyLocks : GraphKeyLocks) : BatchEnd :=
  if 0 < status.error then .error (SchedulerError.BatchError.error "Batch with errors")
  else if states ≠ [] ∧ status.total = 0 then runPass deadLockCallback states keyLocks
  else runPass keyLockCallback states keyLocks

/-- What happened in a completed batch. -/
structure BatchLog where
  dispatched : List Dispatch
  erased : List ExecutiveState
  victims : List ContextID
  deriving DecidableEq, Repr

/-- How `DMTExecute` ends: with an error, with the header (null for a static
call), or not at all. -/
inductive Outcome
  | error (error : Error)
  | success (header : Option BlockHeader)
  | fault (fault : Fault)
  deriving DecidableEq, Repr

/-- Where `DMTExecute` stands. -/
inductive Phase
  | batching
  /-- `batchGetHashes` has not answered. -/
  | hashing
  | finished (outcome : Outcome)
  deriving DecidableEq, Repr

/-- State of `DMTExecute`.  The map `m_executiveStates` is what lies behind the
cursor followed by `todo`; `replied` are the replies to the current batch,
`history` the completed batches, `receipts` what was appended to the block. -/
structure Machine where
  todo : List Node
  cursor : Cursor := {}
  log : SendLog
  replied : List (ContextID × Reply) := []
  history : List BatchLog := []
  receipts : List (Option Receipt) := []
  phase : Phase := .batching
  deriving DecidableEq

/-- What executors may answer: to a message, and when asked for their state
root, after the messages of the earlier batches. -/
structure Executors where
  reply : List (List ExecutionMessage) → ExecutionMessage → Reply → Prop
  hash : List (List ExecutionMessage) → Except Error H256 → Prop

namespace Machine

section

variable (env : BlockEnv) (staticCall : Bool)

/-- `m_executiveStates`. -/
def states (m : Machine) : List Node := m.cursor.visited ++ m.todo

/-- The messages of the completed batches. -/
def sentBefore (m : Machine) : List (List ExecutionMessage) :=
  m.history.map fun b => b.dispatched.map Dispatch.message

/-- `startBatch` on the states of the map. -/
def startBatch (states : List Node) (ctx : SendContext) (history : List BatchLog) : Machine where
  todo := states
  log := { ctx := { ctx with calledContract := [] } }
  history := history

/-- A visit of the sending traversal. -/
def visit (m : Machine) (n : Node) (rest : List Node) : Machine :=
  match traverseStep (sendCallback env) n rest m.log m.cursor with
  | .error f => { m with phase := .finished (.fault f) }
  | .ok (log, cursor, todo) => { m with todo := todo, cursor := cursor, log := log }

/-- `DMTExecute` when no state is left. -/
def finish (m : Machine) : Machine :=
  if staticCall then
    { m with receipts := m.receipts ++ m.log.ctx.executiveResults.map ExecutiveResult.receipt
             phase := .finished (.success none) }
  else { m with phase := .hashing }

/-- The continuation of `DMTExecute` after a completed batch. -/
def afterBatch (m : Machine) : BatchEnd → Machine
  | .error _ =>
      { m with phase := .finished (.error (SchedulerError.DMTError.error "Execute with errors")) }
  | .fault f => { m with phase := .finished (.fault f) }
  | .next states keyLocks victims =>
      let history := m.history ++ [⟨m.log.dispatched, m.log.erased, victims⟩]
      let m' := startBatch states { m.log.ctx with keyLocks := keyLocks } history
      if states.isEmpty then m'.finish staticCall else m'

/-- `checkBatch`; `compare_exchange_strong` lets it complete a batch once. -/
def checkBatch (m : Machine) : Machine :=
  if m.log.status.allSended ∧ m.log.status.received = m.log.status.total ∧
      m.log.status.callbackExecuted = false then
    { m with log := { m.log with status := { m.log.status with callbackExecuted := true } } }
      |>.afterBatch staticCall (endBatch m.log.status m.states m.log.ctx.keyLocks)
  else m

/-- `batchStatus->allSended = true` after the traversal. -/
def setAllSended (m : Machine) : Machine :=
  { m with log := { m.log with status := { m.log.status with allSended := true } } }

/-- Write the reply to context `c` into its state. -/
def storeAt (c : ContextID) (reply : Reply) (n : Node) : Node :=
  if n.2.contextID = c then (n.1, storeReply reply n.2) else n

/-- The reply handler up to `checkBatch`. -/
def receive (m : Machine) (c : ContextID) (reply : Reply) : Machine :=
  { m with
    todo := m.todo.map (storeAt c reply)
    cursor := { m.cursor with visited := m.cursor.visited.map (storeAt c reply) }
    log := { m.log with status := { m.log.status with
      received := m.log.status.received + 1
      error := m.log.status.error + if reply.failed then 1 else 0 } }
    replied := m.replied ++ [(c, reply)] }

/-- The answer of `batchGetHashes`. -/
def hashDone (m : Machine) : Except Error H256 → Machine
  | .error _ =>
      { m with phase := .finished (.error (SchedulerError.UnknownError.error "Unknown error")) }
  | .ok hash =>
      { m with receipts := m.receipts ++ m.log.ctx.executiveResults.map ExecutiveResult.receipt
               phase := .finished (.success (some ⟨env.number, hash, m.log.ctx.gasUsed⟩)) }

end

variable (env : BlockEnv) (staticCall : Bool) (executors : Executors)

/-- One step of `DMTExecute`. -/
inductive Step : Machine → Machine → Prop
  | visit {m : Machine} {n : Node} {rest : List Node} : m.phase = .batching →
      m.todo = n :: rest → Step m (m.visit env n rest)
  | allSended {m : Machine} : m.phase = .batching → m.todo = [] → Step m m.setAllSended
  | check {m : Machine} : m.phase = .batching → m.todo = [] →
      m.log.status.allSended = true → Step m (m.checkBatch staticCall)
  | reply {m : Machine} {d : Dispatch} {reply : Reply} : m.phase = .batching →
      d ∈ m.log.dispatched → d.contextID ∉ m.replied.map Prod.fst →
      executors.reply m.sentBefore d.message reply →
      Step m ((m.receive d.contextID reply).checkBatch staticCall)
  | hash {m : Machine} {answer : Except Error H256} : m.phase = .hashing →
      executors.hash m.sentBefore answer → Step m (m.hashDone env answer)

/-- Any number of steps. -/
def Steps : Machine → Machine → Prop := Relation.ReflTransGen (Step env staticCall executors)

/-! ### Rules -/

section Rules

variable {P : Machine → Prop} {m : Machine}

/-- A property that reads neither receipts nor phase is kept by `checkBatch` if
it does not read `callbackExecuted` and holds of the next batch. -/
theorem checkBatch_rule
    (hblind : ∀ (m : Machine) receipts phase, P m →
      P { m with receipts := receipts, phase := phase })
    (hcalled : P { m with log := { m.log with status :=
      { m.log.status with callbackExecuted := true } } })
    (hnext : ∀ states keyLocks victims, m.log.status.allSended = true →
      endBatch m.log.status m.states m.log.ctx.keyLocks = .next states keyLocks victims →
      P (startBatch states { m.log.ctx with keyLocks := keyLocks }
        (m.history ++ [⟨m.log.dispatched, m.log.erased, victims⟩])))
    (h : P m) : P (m.checkBatch staticCall) := by
  unfold checkBatch
  split_ifs with hcomplete
  · rcases hend : endBatch m.log.status m.states m.log.ctx.keyLocks with
      e | f | ⟨states, keyLocks, victims⟩
    · exact hblind _ m.receipts _ hcalled
    · exact hblind _ m.receipts _ hcalled
    · have hstart := hnext states keyLocks victims hcomplete.1 hend
      simp only [afterBatch]
      split_ifs
      · unfold finish
        split_ifs
        · exact hblind _ _ _ hstart
        · exact hblind _ [] _ hstart
      · exact hstart
  · exact h

theorem hashDone_rule
    (hblind : ∀ (m : Machine) receipts phase, P m →
      P { m with receipts := receipts, phase := phase })
    (h : P m) (answer : Except Error H256) : P (m.hashDone env answer) := by
  cases answer with
  | error e => exact hblind m m.receipts _ h
  | ok hash => exact hblind m _ _ h

theorem states_receive (m : Machine) (c : ContextID) (reply : Reply) :
    (m.receive c reply).states = m.states.map (storeAt c reply) := by
  rw [states, states, List.map_append]
  rfl

/-- The message of a state after a reply: its own, or the reply. -/
theorem message_storeAt {c : ContextID} {reply : Reply} {n : Node} {message : ExecutionMessage}
    (h : (storeAt c reply n).2.message = some message) :
    n.2.message = some message ∨ (n.2.contextID = c ∧ reply = .message message) := by
  unfold storeAt at h
  split_ifs at h with hc
  · cases reply with
    | error e => cases h
    | null => exact Or.inl h
    | message msg =>
        obtain rfl := Option.some.inj h
        exact Or.inr ⟨hc, rfl⟩
  · exact Or.inl h

theorem contextID_storeAt (c : ContextID) (reply : Reply) (n : Node) :
    (storeAt c reply n).2.contextID = n.2.contextID := by
  unfold storeAt
  split_ifs
  · cases reply <;> rfl
  · rfl

end Rules

end Machine

/-! ### Scheduled runs -/

/-- Executors that answer by function. -/
def Executors.ofFun (reply : List (List ExecutionMessage) → ExecutionMessage → Reply)
    (hash : List (List ExecutionMessage) → Except Error H256) : Executors where
  reply before message r := r = reply before message
  hash before answer := answer = hash before

namespace Machine

/-- Who moves next: the traversal, the sender after it, an executor with its
reply for a context, or the executors with their state root. -/
inductive Move
  | visit
  | allSended
  | check
  | reply (c : ContextID)
  | hash
  deriving DecidableEq, Repr

section

variable (env : BlockEnv) (staticCall : Bool)
  (reply : List (List ExecutionMessage) → ExecutionMessage → Reply)
  (hash : List (List ExecutionMessage) → Except Error H256)

/-- Make a move if it is possible. -/
def move (m : Machine) : Move → Machine
  | .visit =>
      match m.todo with
      | n :: rest => if m.phase = .batching then m.visit env n rest else m
      | [] => m
  | .allSended => if m.phase = .batching ∧ m.todo = [] then m.setAllSended else m
  | .check =>
      if m.phase = .batching ∧ m.todo = [] ∧ m.log.status.allSended = true then
        m.checkBatch staticCall
      else m
  | .reply c =>
      match m.log.dispatched.find? fun d => d.contextID = c with
      | some d =>
          if m.phase = .batching ∧ c ∉ m.replied.map Prod.fst then
            (m.receive c (reply m.sentBefore d.message)).checkBatch staticCall
          else m
      | none => m
  | .hash => if m.phase = .hashing then m.hashDone env (hash m.sentBefore) else m

/-- A run under a schedule. -/
def run (m : Machine) (schedule : List Move) : Machine :=
  schedule.foldl (move env staticCall reply hash) m

end

variable {env : BlockEnv} {staticCall : Bool}
  {reply : List (List ExecutionMessage) → ExecutionMessage → Reply}
  {hash : List (List ExecutionMessage) → Except Error H256}

/-- A move does nothing or is a step. -/
theorem move_cases (m : Machine) (a : Move) :
    m.move env staticCall reply hash a = m ∨
      Step env staticCall (.ofFun reply hash) m (m.move env staticCall reply hash a) := by
  cases a with
  | visit =>
      unfold move
      dsimp only
      split
      next n rest htodo =>
        split_ifs with hphase
        · exact Or.inr (.visit hphase htodo)
        · exact Or.inl rfl
      next => exact Or.inl rfl
  | allSended =>
      unfold move
      dsimp only
      split_ifs with h
      · exact Or.inr (.allSended h.1 h.2)
      · exact Or.inl rfl
  | check =>
      unfold move
      dsimp only
      split_ifs with h
      · exact Or.inr (.check h.1 h.2.1 h.2.2)
      · exact Or.inl rfl
  | reply c =>
      unfold move
      dsimp only
      split
      next d hd =>
        split_ifs with h
        · have hctx : d.contextID = c := by simpa using List.find?_some hd
          subst hctx
          exact Or.inr (.reply h.1 (List.mem_of_find?_eq_some hd) h.2 rfl)
        · exact Or.inl rfl
      next => exact Or.inl rfl
  | hash =>
      unfold move
      dsimp only
      split_ifs with h
      · exact Or.inr (.hash h rfl)
      · exact Or.inl rfl

/-- A scheduled run is a run. -/
theorem run_steps (m : Machine) (schedule : List Move) :
    Steps env staticCall (.ofFun reply hash) m (m.run env staticCall reply hash schedule) := by
  induction schedule generalizing m with
  | nil => exact .refl
  | cons a rest ih =>
      rcases move_cases m a with heq | hstep
      · rw [run, List.foldl_cons, heq]
        exact ih m
      · exact Relation.ReflTransGen.head hstep (ih _)

end Machine

end BcosScheduler
