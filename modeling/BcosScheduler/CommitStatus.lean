/-
BcosScheduler/CommitStatus.lean

`CommitStatus`, the pair of counters with which the block executive collects
the replies of storage and executors (`batchNextBlock`, `batchGetHashes`,
`asyncCommit`, `batchBlockCommit`, `batchBlockRollback`).  A reply handler
increments one counter and then runs `checkAndCommit`, which acts once
`success + failed` has reached `total`.
-/
import BcosScheduler.Common
import BcosScheduler.Lib.Tally

namespace BcosScheduler

/-- `CommitStatus` without its continuation. -/
structure CommitStatus where
  total : Nat
  success : Nat := 0
  failed : Nat := 0
  deriving DecidableEq, Repr

namespace CommitStatus

/-- `++status->success` or `++status->failed`. -/
def count (status : CommitStatus) (ok : Bool) : CommitStatus :=
  if ok then { status with success := status.success + 1 }
  else { status with failed := status.failed + 1 }

/-- `checkAndCommit` goes on: not `success + failed < total`. -/
def full (status : CommitStatus) : Bool := status.total ≤ status.success + status.failed

theorem count_total (status : CommitStatus) (ok : Bool) :
    (status.count ok).total = status.total := by
  cases ok <;> rfl

theorem count_sum (status : CommitStatus) (ok : Bool) :
    (status.count ok).success + (status.count ok).failed
      = status.success + status.failed + 1 := by
  cases ok with
  | false => rfl
  | true => exact Nat.add_right_comm _ _ _

theorem failed_of_count {status : CommitStatus} {ok : Bool} (h : (status.count ok).failed = 0) :
    status.failed = 0 ∧ ok = true := by
  cases ok with
  | false => cases h
  | true => exact ⟨h, rfl⟩

variable {P : Type*} [Fintype P] [DecidableEq P]

/-- The counters count the replies of all participants `P`. -/
structure Counts (status : CommitStatus) (reply : P → Option Bool) : Prop where
  total : status.total = Fintype.card P
  success : status.success = Tally.count reply true
  failed : status.failed = Tally.count reply false

omit [DecidableEq P] in
theorem Counts.init : Counts { total := Fintype.card P } fun _ : P => none :=
  ⟨rfl, (Tally.count_none true).symm, (Tally.count_none false).symm⟩

theorem Counts.count {status : CommitStatus} {reply : P → Option Bool}
    (h : status.Counts reply) {p : P} (hp : reply p = none) (ok : Bool) :
    (status.count ok).Counts (Function.update reply p (some ok)) := by
  rcases ok with _ | _
  · exact ⟨h.total, by rw [Tally.count_update hp]; exact h.success,
      by rw [Tally.count_update hp, ← h.failed]; rfl⟩
  · exact ⟨h.total, by rw [Tally.count_update hp, ← h.success]; rfl,
      by rw [Tally.count_update hp]; exact h.failed⟩

omit [DecidableEq P] in
/-- `checkAndCommit` goes on iff everybody's reply was counted. -/
theorem Counts.full_iff {status : CommitStatus} {reply : P → Option Bool}
    (h : status.Counts reply) : status.full = true ↔ ∀ p, reply p ≠ none := by
  rw [← Tally.full_iff, full, decide_eq_true_iff, h.total, h.success, h.failed]

omit [DecidableEq P] in
theorem Counts.failed_pos_iff {status : CommitStatus} {reply : P → Option Bool}
    (h : status.Counts reply) : 0 < status.failed ↔ ∃ p, reply p = some false := by
  rw [h.failed, Tally.count_pos_iff]

end CommitStatus

end BcosScheduler
