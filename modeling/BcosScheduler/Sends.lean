/-
BcosScheduler/Sends.lean

What the callback of `startBatch` can do to a state (`Sends`), stated once: it
stops at an error, skips, waits for a key, erases a finished transaction, or
sends the message.  Messages are sent from five kinds of states (`Prepares`).
-/
import BcosScheduler.Machine

namespace BcosScheduler

variable {env : BlockEnv} {log log' : SendLog} {state state' : ExecutiveState}
  {hint : TraverseHint}

/-- How the message of a state is made ready to be sent: the new call stack,
sequence counter, locks and message, and whether an address was assigned. -/
inductive Prepares (env : BlockEnv) (ctx : SendContext) (state : ExecutiveState)
    (message : ExecutionMessage) :
    List Seq → Seq → GraphKeyLocks → ExecutionMessage → Bool → Prop
  | push : message.type = .MESSAGE ∨ message.type = .TXHASH →
      Prepares env ctx state message (state.currentSeq :: state.callStack)
        (state.currentSeq + 1) ctx.keyLocks
        { withTarget env message state.contextID state.currentSeq with seq := state.currentSeq }
        (message.toAddr = "")
  | pop {returned top : Seq} {rest : List Seq} :
      message.type = .FINISHED ∨ message.type = .REVERT →
      state.callStack = returned :: top :: rest →
      Prepares env ctx state message (top :: rest) state.currentSeq ctx.keyLocks
        { message with seq := top, create := false } false
  | revertKeyLock : message.type = .REVERT_KEY_LOCK →
      Prepares env ctx state message state.callStack state.currentSeq ctx.keyLocks
        { message with type := .REVERT, create := false, keyLocks := [] } false
  | retry : message.type = .KEY_LOCK →
      (ctx.keyLocks.acquireKeyLock message.fromAddr message.keyLockAcquired state.contextID
        message.seq).2 = true →
      Prepares env ctx state message state.callStack state.currentSeq
        (ctx.keyLocks.acquireKeyLock message.fromAddr message.keyLockAcquired state.contextID
          message.seq).1 message false
  | sendBack : message.type = .SEND_BACK →
      Prepares env ctx state message state.callStack state.currentSeq ctx.keyLocks
        (withTarget env
          { message with type := if message.transactionHash ≠ 0 then .TXHASH else .MESSAGE }
          state.contextID message.seq)
        (message.toAddr = "")

/-- The message is a return. -/
def ExecutionMessage.returns (m : ExecutionMessage) : Prop := m.type = .FINISHED ∨ m.type = .REVERT

/-- The contract of the message was not called in this batch. -/
def NotCalled (ctx : SendContext) (message : ExecutionMessage) : Prop :=
  ¬ (message.toAddr ≠ "" ∧ message.toAddr ∈ ctx.calledContract)

/-- The message as it goes to the executor, with the keys other contexts own. -/
def published (keyLocks : GraphKeyLocks) (contextID : ContextID) (message : ExecutionMessage) :
    ExecutionMessage :=
  { message with
    keyLocks := keyLocks.getKeyLocksNotHoldingByContext message.toAddr contextID }

/-- The log after a message was sent. -/
def SendLog.sent (log : SendLog) (keyLocks : GraphKeyLocks) (contextID : ContextID)
    (message : ExecutionMessage) (created : Bool) : SendLog :=
  { log with
    ctx := { log.ctx with keyLocks := keyLocks
                          calledContract := message.toAddr :: log.ctx.calledContract }
    status := { log.status with total := log.status.total + 1 }
    dispatched := log.dispatched ++ [⟨contextID, published keyLocks contextID message, created⟩] }

/-- The log after a transaction was finished. -/
def SendLog.erase (env : BlockEnv) (log : SendLog) (state : ExecutiveState)
    (message : ExecutionMessage) : SendLog :=
  { log with
    ctx := { log.ctx with
      executiveResults := log.ctx.executiveResults.modify state.contextID.toNat
        fun result => { result with receipt := some (createReceipt env message) }
      gasUsed := addGasUsed log.ctx.gasUsed message.gasAvailable }
    erased := log.erased ++ [state] }

/-- Everything the callback of `startBatch` can do. -/
inductive Sends (env : BlockEnv) (log : SendLog) (state : ExecutiveState) :
    TraverseHint → SendLog → ExecutiveState → Prop
  | error : state.error.isSome = true →
      Sends env log state .END { log with status := { log.status with
        allSended := true, error := log.status.error + 1 } } state
  | skip {message : ExecutionMessage} : state.error = none → state.message = some message →
      message.toAddr ≠ "" → message.toAddr ∈ log.ctx.calledContract →
      Sends env log state .SKIP log { state with skip := true }
  | wait {message : ExecutionMessage} : state.error = none → state.message = some message →
      NotCalled log.ctx message → message.type = .KEY_LOCK →
      (log.ctx.keyLocks.acquireKeyLock message.fromAddr message.keyLockAcquired state.contextID
        message.seq).2 = false →
      Sends env log state .PASS { log with ctx := { log.ctx with
        keyLocks := (log.ctx.keyLocks.acquireKeyLock message.fromAddr message.keyLockAcquired
          state.contextID message.seq).1 } } state
  | erase {message : ExecutionMessage} {last : Seq} : state.error = none →
      state.message = some message → NotCalled log.ctx message →
      message.type = .FINISHED ∨ message.type = .REVERT → state.callStack = [last] →
      Sends env log state .DELETE (log.erase env state message) state
  | send {message message' : ExecutionMessage} {callStack : List Seq} {currentSeq : Seq}
      {keyLocks : GraphKeyLocks} {created : Bool} : state.error = none →
      state.message = some message → NotCalled log.ctx message →
      Prepares env log.ctx state message callStack currentSeq keyLocks message' created →
      Sends env log state .PASS (log.sent keyLocks state.contextID message' created)
        { state with callStack := callStack, currentSeq := currentSeq, message := none }

/-- The actions of the callback, before the bookkeeping. -/
theorem startBatchCallback_cases {ctx : SendContext} {action : SendAction}
    (h : startBatchCallback env ctx state = .ok action) :
    (state.error.isSome = true ∧ action = .error) ∨
    state.error = none ∧ ∃ message, state.message = some message ∧
      ((message.toAddr ≠ "" ∧ message.toAddr ∈ ctx.calledContract ∧
          action = .skip { state with skip := true }) ∨
        NotCalled ctx message ∧
          ((message.type = .KEY_LOCK ∧
              (ctx.keyLocks.acquireKeyLock message.fromAddr message.keyLockAcquired
                state.contextID message.seq).2 = false ∧
              action = .wait { ctx with
                keyLocks := (ctx.keyLocks.acquireKeyLock message.fromAddr message.keyLockAcquired
                  state.contextID message.seq).1 } state) ∨
            ((message.type = .FINISHED ∨ message.type = .REVERT) ∧
              (∃ last, state.callStack = [last]) ∧
              action = .erase { ctx with
                executiveResults := ctx.executiveResults.modify state.contextID.toNat
                  fun result => { result with receipt := some (createReceipt env message) }
                gasUsed := addGasUsed ctx.gasUsed message.gasAvailable }) ∨
            ∃ callStack currentSeq keyLocks message' created,
              Prepares env ctx state message callStack currentSeq keyLocks message' created ∧
              action = dispatchMessage { ctx with keyLocks := keyLocks }
                { state with callStack := callStack, currentSeq := currentSeq }
                message' created)) := by
  -- the splits follow the callback: error, message, called contract, then its type
  unfold startBatchCallback at h
  split at h
  next herr =>
    cases h
    exact Or.inl ⟨herr, rfl⟩
  next herr =>
    refine Or.inr ⟨by simpa using herr, ?_⟩
    split at h
    next => cases h
    next message hmsg =>
      refine ⟨message, hmsg, ?_⟩
      split at h
      next hcalled =>
        cases h
        exact Or.inl ⟨hcalled.1, hcalled.2, rfl⟩
      next hcalled =>
        refine Or.inr ⟨hcalled, ?_⟩
        split at h
        next htype =>
          cases h
          exact Or.inr (Or.inr ⟨_, _, _, _, _, .push (Or.inl htype), rfl⟩)
        next htype =>
          cases h
          exact Or.inr (Or.inr ⟨_, _, _, _, _, .push (Or.inr htype), rfl⟩)
        next htype =>
          split at h
          next => cases h
          next last hstack =>
            cases h
            exact Or.inr (Or.inl ⟨Or.inl htype, ⟨last, hstack⟩, rfl⟩)
          next hstack =>
            cases h
            exact Or.inr (Or.inr ⟨_, _, _, _, _, .pop (Or.inl htype) hstack, rfl⟩)
        next htype =>
          split at h
          next => cases h
          next last hstack =>
            cases h
            exact Or.inr (Or.inl ⟨Or.inr htype, ⟨last, hstack⟩, rfl⟩)
          next hstack =>
            cases h
            exact Or.inr (Or.inr ⟨_, _, _, _, _, .pop (Or.inr htype) hstack, rfl⟩)
        next htype =>
          cases h
          exact Or.inr (Or.inr ⟨_, _, _, _, _, .revertKeyLock htype, rfl⟩)
        next htype =>
          dsimp only at h
          split at h
          next hacq =>
            cases h
            exact Or.inr (Or.inr ⟨_, _, _, _, _, .retry htype hacq, rfl⟩)
          next hacq =>
            cases h
            exact Or.inl ⟨htype, by simpa using hacq, rfl⟩
        next htype =>
          cases h
          exact Or.inr (Or.inr ⟨_, _, _, _, _, .sendBack htype, rfl⟩)

theorem sendCallback_sends (h : sendCallback env log state = .ok (hint, log', state')) :
    Sends env log state hint log' state' := by
  unfold sendCallback at h
  rcases hcall : startBatchCallback env log.ctx state with f | action
  · rw [hcall] at h
    cases h
  · rw [hcall] at h
    rcases startBatchCallback_cases hcall with ⟨herr, rfl⟩ | ⟨herr, message, hmsg,
      ⟨hne, hcalled, rfl⟩ | ⟨hnot, ⟨htype, hacq, rfl⟩ | ⟨htype, ⟨last, hstack⟩, rfl⟩ |
        ⟨callStack, currentSeq, keyLocks, message', created, hprep, rfl⟩⟩⟩
    · cases h
      exact .error herr
    · cases h
      exact .skip herr hmsg hne hcalled
    · cases h
      exact .wait herr hmsg hnot htype hacq
    · cases h
      exact .erase herr hmsg hnot htype hstack
    · -- stated before `cases`, which would compute the record of the sent state away
      have hs : Sends env log state _ _ _ := .send herr hmsg hnot hprep
      cases h
      exact hs

/-- The callback fails only on a missing message or a return without a frame. -/
theorem startBatchCallback_error {ctx : SendContext} {f : Fault}
    (h : startBatchCallback env ctx state = .error f) :
    (state.message = none ∧ f = .assertMessage) ∨
    ∃ message, state.message = some message ∧
      (message.type = .FINISHED ∨ message.type = .REVERT) ∧ state.callStack = [] ∧
      f = .emptyPop := by
  unfold startBatchCallback at h
  split at h
  next => cases h
  next =>
    split at h
    next hmsg =>
      cases h
      exact Or.inl ⟨hmsg, rfl⟩
    next message hmsg =>
      refine Or.inr ⟨message, hmsg, ?_⟩
      split at h
      next => cases h
      next =>
        split at h
        next => cases h
        next => cases h
        next htype =>
          split at h
          next hstack =>
            cases h
            exact ⟨Or.inl htype, hstack, rfl⟩
          next => cases h
          next => cases h
        next htype =>
          split at h
          next hstack =>
            cases h
            exact ⟨Or.inr htype, hstack, rfl⟩
          next => cases h
          next => cases h
        next => cases h
        next =>
          dsimp only at h
          split at h <;> cases h
        next => cases h

/-- The callback does not fail on a state with a message and, for a return, a
frame to return from. -/
theorem sendCallback_ok {message : ExecutionMessage} (hmsg : state.message = some message)
    (hstack : message.type = .FINISHED ∨ message.type = .REVERT → state.callStack ≠ []) :
    ∃ r, sendCallback env log state = .ok r := by
  unfold sendCallback
  rcases hcall : startBatchCallback env log.ctx state with f | action
  · rcases startBatchCallback_error hcall with ⟨hnone, -⟩ | ⟨message', hmsg', htype, hempty, -⟩
    · rw [hnone] at hmsg
      cases hmsg
    · rw [hmsg] at hmsg'
      cases hmsg'
      exact absurd hempty (hstack htype)
  · cases action <;> exact ⟨_, rfl⟩

theorem Sends.contextID (h : Sends env log state hint log' state') :
    state'.contextID = state.contextID := by
  cases h <;> rfl

end BcosScheduler
