/-
BcosScheduler/Batch.lean

The callbacks of one batch (`BlockExecutive::startBatch` and
`BlockExecutive::checkBatch`):

* `startBatchCallback` looks at one state and either dispatches its message
  to an executor, finishes the transaction, lets it wait for a key, or skips
  the state because its contract was already called in this batch;
* `storeReply` is what the reply handler writes into the state;
* `deadLockCallback` and `keyLockCallback` are the two passes `checkBatch`
  makes when the batch is complete.

How these are scheduled against each other is the subject of
`BcosScheduler.Machine`.
-/
import BcosScheduler.Address
import BcosScheduler.Executive
import BcosScheduler.GraphKeyLocks

namespace BcosScheduler

/-- A transaction receipt, as the arguments of `createReceipt`. -/
structure Receipt where
  gasUsed : Int
  contractAddress : String
  logEntries : List String
  status : Int
  output : Bytes
  blockNumber : BlockNumber
  deriving DecidableEq, Repr

/-- `ExecutiveResult`. -/
structure ExecutiveResult where
  receipt : Option Receipt := none
  transactionHash : H256
  source : String
  deriving DecidableEq, Repr

/-- What a block executive knows about its block and scheduler. -/
structure BlockEnv where
  number : BlockNumber
  hashImpl : Bytes → H256

/-- A message handed to an executor: the state it belongs to, the message, and
whether its target address was assigned in this batch. -/
structure Dispatch where
  contextID : ContextID
  message : ExecutionMessage
  created : Bool
  deriving DecidableEq, Repr

/-- The data the callback of `startBatch` reads and changes besides the state:
the contracts called in this batch, and members of the block executive. -/
structure SendContext where
  calledContract : List String := []
  keyLocks : GraphKeyLocks
  executiveResults : List ExecutiveResult
  gasUsed : Nat
  deriving DecidableEq, Repr

/-- What the callback of `startBatch` does with a state. -/
inductive SendAction
  /-- The state has an error: `END`. -/
  | error
  /-- The contract was called in this batch: `SKIP`. -/
  | skip (state : ExecutiveState)
  /-- The key is owned by another context: `PASS`. -/
  | wait (ctx : SendContext) (state : ExecutiveState)
  /-- The call stack got empty: `DELETE`. -/
  | erase (ctx : SendContext)
  /-- The message goes to an executor: `PASS`. -/
  | send (ctx : SendContext) (state : ExecutiveState) (dispatch : Dispatch)

section Send

variable (env : BlockEnv)

/-- The address `startBatch` gives to a message without target. -/
def assignAddress (message : ExecutionMessage) (contextID : ContextID) (seq : Seq) : String :=
  match message.createSalt with
  | some salt => newEVMAddressBySalt env.hashImpl message.fromAddr message.data salt
  | none => newEVMAddress env.hashImpl env.number contextID seq

/-- The message with a target: its own, or a new address. -/
def withTarget (message : ExecutionMessage) (contextID : ContextID) (seq : Seq) :
    ExecutionMessage :=
  if message.toAddr = "" then
    { message with toAddr := assignAddress env message contextID seq }
  else message

/-- `createReceipt` for the last message of a transaction. -/
def createReceipt (message : ExecutionMessage) : Receipt where
  gasUsed := message.gasAvailable
  contractAddress := message.newEVMContractAddress
  logEntries := message.logEntries
  status := message.status
  output := message.data
  blockNumber := env.number

/-- `m_gasUsed += TRANSACTION_GAS - gasAvailable`, in 64-bit arithmetic. -/
def addGasUsed (gasUsed : Nat) (gasAvailable : Int) : Nat :=
  (((gasUsed : Int) + ((transactionGas : Int) - gasAvailable)) % (2 ^ 64)).toNat

/-- The end of the callback: note the contract, publish the keys other contexts
own, and move the message out to an executor. -/
def dispatchMessage (ctx : SendContext) (state : ExecutiveState) (message : ExecutionMessage)
    (created : Bool) : SendAction :=
  let message := { message with
    keyLocks := ctx.keyLocks.getKeyLocksNotHoldingByContext message.toAddr state.contextID }
  .send { ctx with calledContract := message.toAddr :: ctx.calledContract }
    { state with message := none } ⟨state.contextID, message, created⟩

/-- The callback `startBatch` gives to `traverseExecutive`. -/
def startBatchCallback (ctx : SendContext) (state : ExecutiveState) :
    Except Fault SendAction :=
  if state.error.isSome then .ok .error
  else
    match state.message with
    | none => .error .assertMessage
    | some message =>
        -- another context is processing the same contract
        if message.toAddr ≠ "" ∧ message.toAddr ∈ ctx.calledContract then
          .ok (.skip { state with skip := true })
        else
          match message.type with
          | .MESSAGE | .TXHASH =>
              -- request type, push stack
              let newSeq := state.currentSeq
              let created := message.toAddr = ""
              let message := { withTarget env message state.contextID newSeq with seq := newSeq }
              let state := { state with currentSeq := newSeq + 1
                                        callStack := newSeq :: state.callStack }
              .ok (dispatchMessage ctx state message created)
          | .FINISHED | .REVERT =>
              -- return type, pop stack
              match state.callStack with
              | [] => .error .emptyPop
              | [_] =>
                  .ok (.erase { ctx with
                    executiveResults := ctx.executiveResults.modify state.contextID.toNat
                      fun result => { result with receipt := some (createReceipt env message) }
                    gasUsed := addGasUsed ctx.gasUsed message.gasAvailable })
              | _ :: top :: rest =>
                  .ok (dispatchMessage ctx { state with callStack := top :: rest }
                    { message with seq := top, create := false } false)
          | .REVERT_KEY_LOCK =>
              .ok (dispatchMessage ctx state
                { message with type := .REVERT, create := false, keyLocks := [] } false)
          | .KEY_LOCK =>
              -- retry type, send again
              let (keyLocks, acquired) := ctx.keyLocks.acquireKeyLock message.fromAddr
                message.keyLockAcquired state.contextID message.seq
              let ctx := { ctx with keyLocks := keyLocks }
              if acquired then .ok (dispatchMessage ctx state message false)
              else .ok (.wait ctx state)
          | .SEND_BACK =>
              let created := message.toAddr = ""
              let message := { message with
                type := if message.transactionHash ≠ 0 then .TXHASH else .MESSAGE }
              .ok (dispatchMessage ctx state
                (withTarget env message state.contextID message.seq) created)

end Send

/-! ### Replies -/

/-- What an executor hands to the reply callback. -/
inductive Reply
  | error (error : Error)
  | null
  | message (message : ExecutionMessage)
  deriving DecidableEq, Repr

/-- The reply counts as an error of the batch. -/
def Reply.failed : Reply → Bool
  | .message _ => false
  | _ => true

/-- What the reply handler writes into the state, whose message was moved out. -/
def storeReply (reply : Reply) (state : ExecutiveState) : ExecutiveState :=
  match reply with
  | .error e => { state with error := some e, message := none }
  | .null => state
  | .message m => { state with message := some m }

/-! ### The passes of a completed batch -/

/-- The lock graph and the victims chosen so far. -/
structure PassContext where
  keyLocks : GraphKeyLocks
  victims : List ContextID := []
  deriving DecidableEq, Repr

/-- The pass made when nothing was dispatched: turn the first deadlocked
transaction back. -/
def deadLockCallback : TraverseCallback PassContext := fun ctx state =>
  if state.skip then .ok (.SKIP, ctx, { state with skip := false })
  else if ctx.keyLocks.detectDeadLock state.contextID then
    match state.message with
    | none => .error .nullMessage
    | some message =>
        .ok (.END, { ctx with victims := ctx.victims ++ [state.contextID] },
          { state with message := some { message with type := .REVERT_KEY_LOCK } })
  else .ok (.PASS, ctx, state)

/-- The pass made after replies: take the key locks of suspended frames,
release those of returned frames, and update the order. -/
def keyLockCallback : TraverseCallback PassContext := fun ctx state =>
  if state.skip then .ok (.SKIP, ctx, { state with skip := false })
  else
    match state.message with
    | none => .error .nullMessage
    | some message =>
        match message.type with
        | .MESSAGE =>
            match ctx.keyLocks.batchAcquireKeyLock message.fromAddr message.keyLocks
              message.contextID message.seq with
            | .error e => .error (.exception e)
            | .ok keyLocks => .ok (.UPDATE, { ctx with keyLocks := keyLocks }, state)
        | .KEY_LOCK =>
            match ctx.keyLocks.batchAcquireKeyLock message.fromAddr message.keyLocks
              message.contextID message.seq with
            | .error e => .error (.exception e)
            | .ok keyLocks => .ok (.PASS, { ctx with keyLocks := keyLocks }, state)
        | .FINISHED | .REVERT =>
            .ok (.UPDATE, { ctx with
              keyLocks := ctx.keyLocks.releaseKeyLocks message.contextID message.seq }, state)
        | .REVERT_KEY_LOCK => .ok (.PASS, ctx, state)
        | .TXHASH | .SEND_BACK => .ok (.PASS, ctx, state)

end BcosScheduler
