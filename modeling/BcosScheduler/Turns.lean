/-
BcosScheduler/Turns.lean

The turns of transactions: each time `DAGExecute` or `startBatch` sends the
message of a state, or `startBatch` ends the transaction.

A run of `asyncExecute` (`TurnRun`) is taken with all its turns in order; they
are read off its steps.  A turn that starts from a request (`MESSAGE`, `TXHASH`)
opens a call frame; its caller is the frame whose reply the request is, or
nobody if the state had no frame.
-/
import BcosScheduler.Dag
import BcosScheduler.Frames
import BcosScheduler.Lib.CallTree

namespace BcosScheduler

open CallTree

/-- The message asks for a new call frame. -/
def ExecutionMessage.requests (m : ExecutionMessage) : Prop :=
  m.type = .MESSAGE ∨ m.type = .TXHASH

instance (m : ExecutionMessage) : Decidable m.requests :=
  inferInstanceAs (Decidable (m.type = .MESSAGE ∨ m.type = .TXHASH))

/-- What a turn does. -/
inductive TurnKind
  /-- `DAGExecute` sends the message with its group. -/
  | dag (message : ExecutionMessage)
  /-- `startBatch` sends the message. -/
  | sent (message : ExecutionMessage)
  /-- `startBatch` erases the state. -/
  | finished
  deriving DecidableEq, Repr

/-- A turn of a transaction: its state before, with the message to be treated, and
after. -/
structure Turn where
  kind : TurnKind
  before : ExecutiveState
  after : ExecutiveState
  deriving DecidableEq, Repr

namespace Turn

def contextID (t : Turn) : ContextID := t.before.contextID

/-- The message that goes to an executor. -/
def message? (t : Turn) : Option ExecutionMessage :=
  match t.kind with
  | .dag message => some message
  | .sent message => some message
  | .finished => none

/-- The frame a turn opens. -/
def opening (t : Turn) : Option (Opening ContextID Seq) :=
  match t.before.message, t.message? with
  | some request, some message =>
      if request.requests then
        some ⟨t.contextID, message.seq,
          if t.before.callStack = [] then none else some request.seq⟩
      else none
  | _, _ => none

end Turn

/-- The frames opened in a run. -/
def openings (turns : List Turn) : List (Opening ContextID Seq) := turns.filterMap Turn.opening

theorem openings_append (a b : List Turn) : openings (a ++ b) = openings a ++ openings b :=
  List.filterMap_append

/-- The turns of one transaction. -/
def turnsOfContext (turns : List Turn) (c : ContextID) : List Turn :=
  turns.filter fun t => t.contextID = c

/-- The call stack and the counter its last turn left to a transaction. -/
def frameAfter (turns : List Turn) (c : ContextID) : List Seq × Seq :=
  match (turnsOfContext turns c).getLast? with
  | some t => (t.after.callStack, t.after.currentSeq)
  | none => ([], 0)

theorem frameAfter_concat_self (turns : List Turn) (t : Turn) :
    frameAfter (turns ++ [t]) t.contextID = (t.after.callStack, t.after.currentSeq) := by
  simp [frameAfter, turnsOfContext]

theorem frameAfter_concat_of_ne (turns : List Turn) {t : Turn} {c : ContextID}
    (hne : t.contextID ≠ c) : frameAfter (turns ++ [t]) c = frameAfter turns c := by
  simp [frameAfter, turnsOfContext, hne]

/-! ### The turns of a step -/

section Turns

variable (env : BlockEnv)

/-- The turn of the state that `startBatch` comes to. -/
def turnOf (ctx : SendContext) (state : ExecutiveState) : Option Turn :=
  match startBatchCallback env ctx state with
  | .ok (.send _ after d) => some ⟨.sent d.message, state, after⟩
  | .ok (.erase _) => some ⟨.finished, state, { state with callStack := state.callStack.tail }⟩
  | _ => none

/-- The turn of a step of `DMTExecute`: that of the next node, if the step is its
visit and it is not jumped over. -/
def Machine.turn (m m' : Machine) : Option Turn :=
  match m.todo with
  | n :: rest =>
      if m.phase = .batching ∧ m' = m.visit env n rest then
        if m.cursor.jumps n then none else turnOf env m.log.ctx n.2
      else none
  | [] => none

/-- The turn of a state that is sent with its group. -/
def dagTurn (contract : String) (n : Node) : Option Turn :=
  n.2.message.map fun message => ⟨.dag message, n.2, (DagMachine.pushFrame contract n).2⟩

/-- The turns of a step of `DAGExecute`: those of the groups that it takes off the
loop. -/
def DagMachine.turns (d d' : DagMachine) : List Turn :=
  (d.todo.take (d.todo.length - d'.todo.length)).flatMap fun contract =>
    (d.states.filter (inGroup contract)).filterMap (dagTurn contract)

/-- The turns of a step of `asyncExecute`. -/
def Execution.turns (x x' : Execution) : List Turn :=
  (match x.dag, x'.dag with
    | some d, some d' => d.turns d'
    | _, _ => []) ++
  (x.dmts.zip x'.dmts).filterMap fun p => p.1.turn env p.2

end Turns

/-- The messages that came back from `DAGExecute` have the sequence number 0 they
were sent with. -/
def Execution.KeepsFirstFrame (x : Execution) : Prop :=
  ∀ d, x.dag = some d → ∀ n ∈ d.states, ∀ message, n.2.message = some message → message.seq = 0

/-- A run of `asyncExecute` with its turns. -/
inductive TurnRun (env : ExecuteEnv) (block : Block) (executors : Executors) :
    Execution → List Turn → Prop
  | start : TurnRun env block executors (Execution.start env block) []
  | step {x x' : Execution} {turns : List Turn} : TurnRun env block executors x turns →
      Execution.Step env block executors x x' → x'.KeepsFirstFrame →
      TurnRun env block executors x' (turns ++ x.turns (env.blockEnv block) x')

theorem TurnRun.steps {env : ExecuteEnv} {block : Block} {executors : Executors} {x : Execution}
    {turns : List Turn} (h : TurnRun env block executors x turns) :
    Execution.Steps env block executors (Execution.start env block) x := by
  induction h with
  | start => exact Relation.ReflTransGen.refl
  | step _ hstep _ ih => exact ih.tail hstep

/-! ### What a turn can do -/

variable {env : BlockEnv} {log log' : SendLog} {state state' : ExecutiveState}
  {hint : TraverseHint}

/-- The callback of `startBatch` with its turn: it leaves the state but for the
mark, ends the transaction, or sends a message. -/
theorem sendCallback_turn (h : sendCallback env log state = .ok (hint, log', state')) :
    (turnOf env log.ctx state = none ∧ hint ≠ .DELETE ∧ log'.dispatched = log.dispatched ∧
      ∃ skip, state' = { state with skip := skip }) ∨
    (∃ message last, state.message = some message ∧ message.returns ∧ state.callStack = [last] ∧
      hint = .DELETE ∧ log'.dispatched = log.dispatched ∧
      turnOf env log.ctx state
        = some ⟨.finished, state, { state with callStack := state.callStack.tail }⟩) ∨
    ∃ message message' callStack currentSeq keyLocks created, state.message = some message ∧
      Prepares env log.ctx state message callStack currentSeq keyLocks message' created ∧
      hint = .PASS ∧
      log'.dispatched = log.dispatched ++
        [⟨state.contextID, published keyLocks state.contextID message', created⟩] ∧
      state' = { state with callStack := callStack, currentSeq := currentSeq, message := none } ∧
      turnOf env log.ctx state
        = some ⟨.sent (published keyLocks state.contextID message'), state, state'⟩ := by
  unfold sendCallback at h
  unfold turnOf
  rcases hcall : startBatchCallback env log.ctx state with f | action
  · rw [hcall] at h
    cases h
  · rw [hcall] at h
    rcases startBatchCallback_cases hcall with ⟨herr, rfl⟩ | ⟨herr, message, hmsg,
      ⟨hne, hcalled, rfl⟩ | ⟨hnot, ⟨htype, hacq, rfl⟩ | ⟨htype, ⟨last, hstack⟩, rfl⟩ |
        ⟨callStack, currentSeq, keyLocks, message', created, hprep, rfl⟩⟩⟩
    · cases h
      exact Or.inl ⟨rfl, by simp, rfl, _, rfl⟩
    · cases h
      exact Or.inl ⟨rfl, by simp, rfl, _, rfl⟩
    · cases h
      exact Or.inl ⟨rfl, by simp, rfl, _, rfl⟩
    · cases h
      exact Or.inr (Or.inl ⟨message, last, hmsg, htype, hstack, rfl, rfl, rfl⟩)
    · -- stated before `cases`, which would compute the record of the sent state away
      have hs := hprep
      cases h
      exact Or.inr (Or.inr ⟨message, message', callStack, currentSeq, keyLocks, created, hmsg, hs,
        rfl, rfl, rfl, rfl⟩)

end BcosScheduler
