/-
BcosScheduler/Common.lean

Constants, error codes and the message type shared by the scheduler's
components (`Common.h` and the accessors of `ExecutionMessage` the scheduler
uses).

Addresses, keys and contract names are byte strings in the source; their
order is lexicographic, as that of `String`.  `ContextID` and `Seq` are
`int64_t` there and integers here: no modelled function overflows them.
-/
import Mathlib.Data.Int.Basic
import Mathlib.Data.BitVec

namespace BcosScheduler

abbrev ContextID := Int
abbrev Seq := Int
abbrev BlockNumber := Int

/-- 256-bit hashes; `h256(0)` is `0`. -/
abbrev H256 := BitVec 256

abbrev Bytes := List UInt8

/-- The hex digits of a byte, in lower case. -/
def hexByte (b : UInt8) : List Char :=
  let digit (n : Nat) : Char := "0123456789abcdef".toList.getD n '0'
  [digit (b.toNat / 16), digit (b.toNat % 16)]

/-- `toHex` of a byte string. -/
def toHex (s : String) : String :=
  String.ofList (s.toUTF8.data.toList.flatMap hexByte)

/-- `TRANSACTION_GAS`, the gas every transaction starts with. -/
def transactionGas : Nat := 30000000000

/-! ### Errors -/

/-- `enum SchedulerError`. -/
inductive SchedulerError
  | UnknownError
  | InvalidStatus
  | InvalidBlockNumber
  | InvalidBlocks
  | NextBlockError
  | PrewriteBlockError
  | CommitError
  | RollbackError
  | UnexpectedKeyLockError
  | BatchError
  | DMTError
  | DAGError
  deriving DecidableEq, Repr

/-- The numeric value of an error code: `UnknownError = -70000` and on. -/
def SchedulerError.code : SchedulerError → Int
  | UnknownError => -70000
  | InvalidStatus => -69999
  | InvalidBlockNumber => -69998
  | InvalidBlocks => -69997
  | NextBlockError => -69996
  | PrewriteBlockError => -69995
  | CommitError => -69994
  | RollbackError => -69993
  | UnexpectedKeyLockError => -69992
  | BatchError => -69991
  | DMTError => -69990
  | DAGError => -69989

/-- An error object: its code and its text.  Errors of executors and of the
storage have codes of their own.  The chain of previous errors is only printed
by the source and is left out. -/
structure Error where
  code : Int
  message : String
  deriving DecidableEq, Repr

/-- `BCOS_ERROR` with a code of the scheduler. -/
def SchedulerError.error (code : SchedulerError) (message : String) : Error :=
  ⟨code.code, message⟩

/-! ### Execution messages -/

/-- `ExecutionMessage::Type`. -/
inductive MessageType
  | TXHASH
  | MESSAGE
  | FINISHED
  | KEY_LOCK
  | SEND_BACK
  | REVERT
  | REVERT_KEY_LOCK
  deriving DecidableEq, Repr

/-- `ExecutionMessage`, with the fields the scheduler reads or writes.
`toAddr` and `fromAddr` are `to()` and `from()`. -/
structure ExecutionMessage where
  type : MessageType
  contextID : ContextID
  seq : Seq := 0
  toAddr : String := ""
  fromAddr : String := ""
  origin : String := ""
  create : Bool := false
  createSalt : Option (BitVec 256) := none
  transactionHash : H256 := 0
  data : Bytes := []
  depth : Nat := 0
  gasAvailable : Int := 0
  staticCall : Bool := false
  keyLocks : List String := []
  keyLockAcquired : String := ""
  status : Int := 0
  newEVMContractAddress : String := ""
  logEntries : List String := []
  deriving DecidableEq, Repr

/-- What `asyncExecute` fills in of the executed block's header; the roots of
transactions and receipts are computed by the block itself. -/
structure BlockHeader where
  number : BlockNumber
  stateRoot : H256
  gasUsed : Nat
  deriving DecidableEq, Repr

end BcosScheduler
