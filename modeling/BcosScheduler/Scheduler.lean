/-
BcosScheduler/Scheduler.lean

`SchedulerImpl`: the queue `m_blocks` of executed, not yet committed blocks
and its two requests, `executeBlock` and `commitBlock`.

Each request takes its mutex with `try_to_lock` and keeps it until its
asynchronous work has answered, so at most one block is executing and at most
one is committing.  What happens while a mutex is kept is a stage of the
state; the steps of the two requests interleave freely (`Step`).  The
execution of a block and the outcome of its two-phase commit enter as the
answers of `asyncExecute` and `asyncCommit`, the latter as a `CommitResult`;
which of these a commit ends with is the subject of `BcosScheduler.CommitAnswer`.
Every callback is called at most once here; second calls are the subject of
`BcosScheduler.CalledAgain`.
-/
import BcosScheduler.AsyncCommit

namespace BcosScheduler

/-- An entry of `m_blocks`, with an identity of its own. -/
structure QueuedBlock where
  id : Nat
  number : BlockNumber
  result : Option BlockHeader := none
  deriving DecidableEq, Repr

/-- The mutexes of `SchedulerImpl`. -/
inductive SchedulerMutex
  | execute
  | blocks
  | commit
  deriving DecidableEq, Repr

/-- Who keeps the execute mutex. -/
inductive ExecuteStage
  | free
  /-- `asyncExecute` of entry `id` has not answered. -/
  | running (id : Nat) (number : BlockNumber)
  /-- `m_result` of entry `id` is set, the answer not yet handled. -/
  | finished (id : Nat) (header : BlockHeader)
  deriving DecidableEq, Repr

/-- Who keeps the commit mutex. -/
inductive CommitStage
  | free
  /-- A request for `number` has the mutex and did not look at the queue yet. -/
  | testing (number : BlockNumber)
  /-- A test of the queue has failed, the mutex is still taken. -/
  | refusing (number : BlockNumber) (error : Error)
  /-- `asyncCommit` of entry `id` has not answered. -/
  | committing (id : Nat) (number : BlockNumber)
  /-- Committed; `asyncGetLedgerConfig` has not answered. -/
  | querying (id : Nat) (number : BlockNumber)
  /-- Committed; the transaction notifier has not answered. -/
  | notifying (id : Nat) (number : BlockNumber)
  /-- The entry is popped, the mutex still taken. -/
  | popped (number : BlockNumber) (error : Option Error)
  deriving DecidableEq, Repr

/-- One call of a requester's callback, with the mutexes its request holds. -/
inductive Answer
  | execute (number : BlockNumber) (error : Option Error) (header : Option BlockHeader)
      (held : List SchedulerMutex)
  | commit (number : BlockNumber) (error : Option Error) (held : List SchedulerMutex)
  deriving DecidableEq, Repr

/-- Undefined behaviour of the source. -/
inductive SchedulerFault
  /-- The search for an executed block ran past the end of `m_blocks`. -/
  | searchPastEnd
  /-- `front` or `pop_front` of the empty `m_blocks`. -/
  | emptyQueue
  /-- A block is still executing, or answers, when it has left `m_blocks`. -/
  | freedBlock
  deriving DecidableEq, Repr

/-- State of `SchedulerImpl`.  `busy` are the `commitBlock` calls that found the
commit mutex taken; `stored` the entries whose storage commit succeeded and
`committed` the numbers of the successful `batchBlockCommit`s, in order. -/
structure Scheduler where
  blocks : List QueuedBlock := []
  lastExecutedBlockNumber : BlockNumber := 0
  execute : ExecuteStage := .free
  commit : CommitStage := .free
  busy : List BlockNumber := []
  txNotifier : Bool := false
  nextID : Nat := 0
  stored : List Nat := []
  committed : List BlockNumber := []
  answers : List Answer := []
  fault : Option SchedulerFault := none
  deriving DecidableEq, Repr

namespace Scheduler

def answer (s : Scheduler) (a : Answer) : Scheduler := { s with answers := s.answers ++ [a] }

/-! ### `executeBlock` -/

/-- `m_blocks.emplace_back` and the start of `asyncExecute`. -/
def enqueue (s : Scheduler) (number : BlockNumber) : Scheduler :=
  { s with blocks := s.blocks ++ [{ id := s.nextID, number := number }]
           execute := .running s.nextID number
           nextID := s.nextID + 1 }

/-- The already-executed branch: the first entry with the number answers. -/
def answerExecuted (s : Scheduler) (number : BlockNumber) : Scheduler :=
  match s.blocks.find? (fun b => b.number = number) with
  | some b => s.answer (.execute number none b.result [])
  | none => { s with fault := some .searchPastEnd }

/-- `executeBlock` up to the start of `asyncExecute`. -/
def executeBlock (s : Scheduler) (number : BlockNumber) : Scheduler :=
  if s.execute = .free then
    match s.blocks.head?, s.blocks.getLast? with
    | some front, some back =>
        if front.number ≤ number ∧ number ≤ back.number then s.answerExecuted number
        else if number - back.number ≠ 1 then
          s.answer (.execute number (some (SchedulerError.InvalidBlockNumber.error
            ("Invalid block number: " ++ toString number ++ " current last number: " ++
              toString back.number))) none [])
        else s.enqueue number
    | _, _ =>
        -- this answer is given with both mutexes held
        if s.lastExecutedBlockNumber ≠ 0 ∧ number ≤ s.lastExecutedBlockNumber then
          s.answer (.execute number (some (SchedulerError.InvalidBlockNumber.error
            ("Try to execute an executed block: " ++ toString number ++
              ", last executed number: " ++ toString s.lastExecutedBlockNumber))) none
            [.execute, .blocks])
        else s.enqueue number
  else
    s.answer (.execute number
      (some (SchedulerError.InvalidStatus.error "Another block is executing!")) none [])

/-- `asyncExecute` answers an error: the mutex is freed, the entry stays. -/
def executeFailed (s : Scheduler) (number : BlockNumber) : Scheduler :=
  { s with execute := .free }.answer
    (.execute number (some (SchedulerError.UnknownError.error "Unknown error")) none [])

/-- `DMTExecute` sets `m_result` of the executed block. -/
def setResult (s : Scheduler) (id : Nat) (header : BlockHeader) : Scheduler :=
  { s with blocks := s.blocks.map fun b => if b.id = id then { b with result := some header } else b
           execute := .finished id header }

/-- `asyncExecute` answers the executed header. -/
def executeSucceeded (s : Scheduler) (header : BlockHeader) : Scheduler :=
  { s with lastExecutedBlockNumber := header.number, execute := .free }.answer
    (.execute header.number none (some header) [])

/-! ### `commitBlock` -/

/-- `try_to_lock` of the commit mutex. -/
def commitBlock (s : Scheduler) (number : BlockNumber) : Scheduler :=
  if s.commit = .free then { s with commit := .testing number }
  else { s with busy := s.busy ++ [number] }

/-- The branch of a call that found the mutex taken. -/
def commitBusy (s : Scheduler) (number : BlockNumber) : Scheduler :=
  match s.blocks with
  | [] => { s with busy := s.busy.erase number, fault := some .emptyQueue }
  | front :: _ =>
      { s with busy := s.busy.erase number }.answer
        (.commit number (some (SchedulerError.InvalidStatus.error
          ("Another block is committing! Block number: " ++ toString front.number))) [])

/-- An error answer with the mutex freed before. -/
def refuseCommit (s : Scheduler) (number : BlockNumber) (error : Error) : Scheduler :=
  { s with commit := .free }.answer (.commit number (some error) [])

/-- A test of the queue fails; the mutex is freed in a step of its own. -/
def refuse (s : Scheduler) (number : BlockNumber) (error : Error) : Scheduler :=
  { s with commit := .refusing number error }

/-- The tests of the queue by the call that has the mutex. -/
def commitTest (s : Scheduler) (number : BlockNumber) : Scheduler :=
  match s.blocks with
  | [] => s.refuse number (SchedulerError.InvalidBlocks.error "No uncommitted block")
  | front :: _ =>
      if front.result = none then
        s.refuse number (SchedulerError.InvalidStatus.error "Block is executing")
      else if number ≠ front.number then
        s.refuse number (SchedulerError.InvalidBlockNumber.error
          ("Invalid block number, available block number: " ++ toString front.number))
      else { s with commit := .committing front.id front.number }

/-- `asyncCommit` of the entry `id` is over. -/
def commitDone (s : Scheduler) (id : Nat) (number : BlockNumber) : CommitResult → Scheduler
  | .committed => { s with stored := s.stored ++ [id], committed := s.committed ++ [number],
                           commit := .querying id number }
  | .failed storage =>
      { s with stored := if storage then s.stored ++ [id] else s.stored }.refuseCommit number
        (SchedulerError.UnknownError.error "CommitBlock error")
  -- never answered: the mutex goes with the last copy of the callback
  | .rolledBack => { s with commit := .free }

/-- `m_blocks.pop_front()`. -/
def popFront (s : Scheduler) (number : BlockNumber) (error : Option Error) : Scheduler :=
  match s.blocks with
  | [] => { s with commit := .popped number error, fault := some .emptyQueue }
  | _ :: rest => { s with blocks := rest, commit := .popped number error }

/-- `asyncGetLedgerConfig` answers. -/
def ledgerConfigDone (s : Scheduler) (id : Nat) (number : BlockNumber) (ok : Bool) : Scheduler :=
  if ok then
    if s.txNotifier then { s with commit := .notifying id number }
    else s.popFront number none
  else s.refuseCommit number (SchedulerError.UnknownError.error "Get system config error")

/-- A value of the configuration is not a number: its handler throws, and the mutex
goes with the last copy of the callback. -/
def ledgerConfigLost (s : Scheduler) : Scheduler := { s with commit := .free }

/-- The end of a commit: free the mutex and answer. -/
def commitAnswered (s : Scheduler) (number : BlockNumber) (error : Option Error) : Scheduler :=
  { s with commit := .free }.answer (.commit number error [])

/-! ### Runs -/

/-- What happens to the scheduler. -/
inductive Event
  | executeBlock (number : BlockNumber)
  | executeFailed
  | setResult (stateRoot : H256) (gasUsed : Nat)
  | executeSucceeded
  | commitBlock (number : BlockNumber)
  | commitBusy (number : BlockNumber)
  | commitTest
  | commitRefused
  | commitDone (result : CommitResult)
  | ledgerConfigDone (ok : Bool)
  /-- `asyncGetLedgerConfig` is over without having called back. -/
  | ledgerConfigLost
  | notified (error : Option Error)
  | commitAnswered
  | registerTransactionNotifier
  deriving DecidableEq, Repr

/-- One step, under the stage it belongs to. -/
inductive Step : Scheduler → Event → Scheduler → Prop
  | executeBlock {s : Scheduler} (number : BlockNumber) :
      Step s (.executeBlock number) (s.executeBlock number)
  | executeFailed {s : Scheduler} {id : Nat} {number : BlockNumber} :
      s.execute = .running id number → Step s .executeFailed (s.executeFailed number)
  | setResult {s : Scheduler} {id : Nat} {number : BlockNumber} (stateRoot : H256)
      (gasUsed : Nat) : s.execute = .running id number →
      Step s (.setResult stateRoot gasUsed) (s.setResult id ⟨number, stateRoot, gasUsed⟩)
  | executeSucceeded {s : Scheduler} {id : Nat} {header : BlockHeader} :
      s.execute = .finished id header → Step s .executeSucceeded (s.executeSucceeded header)
  | commitBlock {s : Scheduler} (number : BlockNumber) :
      Step s (.commitBlock number) (s.commitBlock number)
  | commitBusy {s : Scheduler} {number : BlockNumber} :
      number ∈ s.busy → Step s (.commitBusy number) (s.commitBusy number)
  | commitTest {s : Scheduler} {number : BlockNumber} :
      s.commit = .testing number → Step s .commitTest (s.commitTest number)
  | commitRefused {s : Scheduler} {number : BlockNumber} {error : Error} :
      s.commit = .refusing number error → Step s .commitRefused (s.refuseCommit number error)
  | commitDone {s : Scheduler} {id : Nat} {number : BlockNumber} (result : CommitResult) :
      s.commit = .committing id number →
      Step s (.commitDone result) (s.commitDone id number result)
  | ledgerConfigDone {s : Scheduler} {id : Nat} {number : BlockNumber} (ok : Bool) :
      s.commit = .querying id number →
      Step s (.ledgerConfigDone ok) (s.ledgerConfigDone id number ok)
  | ledgerConfigLost {s : Scheduler} {id : Nat} {number : BlockNumber} :
      s.commit = .querying id number → Step s .ledgerConfigLost s.ledgerConfigLost
  | notified {s : Scheduler} {id : Nat} {number : BlockNumber} (error : Option Error) :
      s.commit = .notifying id number → Step s (.notified error) (s.popFront number error)
  | commitAnswered {s : Scheduler} {number : BlockNumber} {error : Option Error} :
      s.commit = .popped number error →
      Step s .commitAnswered (s.commitAnswered number error)
  | registerTransactionNotifier {s : Scheduler} :
      Step s .registerTransactionNotifier { s with txNotifier := true }

/-- Any number of steps. -/
def Steps : Scheduler → Scheduler → Prop := Relation.ReflTransGen fun s s' => ∃ e, Step s e s'

/-- Reached from a fresh scheduler. -/
def Reachable (s : Scheduler) : Prop := Steps {} s

end Scheduler

end BcosScheduler
