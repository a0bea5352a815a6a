import BcosScheduler.DeadLock
import BcosScheduler.LockHistory
import BcosScheduler.Determinism
import BcosScheduler.KeyLockSafety
import BcosScheduler.OwnLocks
import BcosScheduler.BatchCompletion
import BcosScheduler.Receipts
import BcosScheduler.Targets
import BcosScheduler.Traverse
import BcosScheduler.Hashes
import BcosScheduler.BatchFanIn
import BcosScheduler.CollectedExecution
import BcosScheduler.CommitAnswer
import BcosScheduler.BlockQueue
import BcosScheduler.CommittedNumbers
import BcosScheduler.DispatchExecutor
import BcosScheduler.Registration
import BcosScheduler.Victims
import BcosScheduler.DagAnswer
import BcosScheduler.DagPath
import BcosScheduler.GasUsed
import BcosScheduler.AddressPreimage
import BcosScheduler.StartOrder
import BcosScheduler.SendBack
import BcosScheduler.Spelling
import BcosScheduler.Rollback
import BcosScheduler.Routing
import BcosScheduler.CallbackLocks
import BcosScheduler.CalledAgain
import BcosScheduler.BusyCommit
import BcosScheduler.Visits
import BcosScheduler.LockGraphInvariant
import BcosScheduler.FailingReply
import BcosScheduler.SkipMarks
import BcosScheduler.Lib.Inevitable
import BcosScheduler.Budget
import BcosScheduler.Termination
import BcosScheduler.Isolation
import BcosScheduler.GroupOrder
import BcosScheduler.ExecuteAgreement
import BcosScheduler.ExecuteCompletes
import BcosScheduler.LedgerConfig
import BcosScheduler.Calls
import BcosScheduler.Lib.Replication
import BcosScheduler.Replicas
import BcosScheduler.Quiescence
import BcosScheduler.Notify
import BcosScheduler.CommitPipeline
import BcosScheduler.DagAgreement
import BcosScheduler.Interleaving
