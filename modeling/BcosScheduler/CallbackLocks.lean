/-
BcosScheduler/CallbackLocks.lean

The mutexes a request of `SchedulerImpl` holds when it calls its caller back.

Every step of a request is given as the sequence of its lock operations, with the
call of the callback in its place (`lockOps`); replaying them gives the mutexes
that are held at each call.  A request keeps one mutex while it waits and lets go
of it right before it answers, on all paths but one: `executeBlock` refuses a number
that was executed and committed before with `m_executeMutex` and `m_blocksMutex`
held (`AnswersLocked`).  So the answers of a run come without a mutex exactly if no
request of the run takes this path (`answered_unlocked_iff`).
-/
import BcosScheduler.BlockQueue

namespace BcosScheduler

/-- What a request does with the mutexes. -/
inductive LockOp
  | lock (mutex : SchedulerMutex)
  | unlock (mutex : SchedulerMutex)
  | callback
  deriving DecidableEq, Repr

/-- The mutexes held after the operations, and those held at each callback. -/
def replay : List SchedulerMutex → List LockOp → List SchedulerMutex × List (List SchedulerMutex)
  | held, [] => (held, [])
  | held, .lock mutex :: ops => replay (held ++ [mutex]) ops
  | held, .unlock mutex :: ops => replay (held.erase mutex) ops
  | held, .callback :: ops => ((replay held ops).1, held :: (replay held ops).2)

/-- Whose operations they are: of the `executeBlock` or the `commitBlock` under way, or
of a call that is answered at once. -/
inductive Requester
  | executing
  | committing
  | refused
  deriving DecidableEq, Repr

namespace Scheduler

/-! ### The lock operations of the source -/

/-- `executeBlock` up to its answer or the start of `asyncExecute`. -/
def executeBlockOps (s : Scheduler) (number : BlockNumber) : List LockOp :=
  if s.execute = .free then
    [.lock .execute, .lock .blocks] ++
      match s.blocks.head?, s.blocks.getLast? with
      | some front, some back =>
          if front.number ≤ number ∧ number ≤ back.number then
            [.unlock .blocks, .unlock .execute, .callback]
          else if number - back.number ≠ 1 then [.unlock .blocks, .unlock .execute, .callback]
          else [.unlock .blocks]
      | _, _ =>
          if s.lastExecutedBlockNumber ≠ 0 ∧ number ≤ s.lastExecutedBlockNumber then
            -- the locks are let go at the return, after the callback
            [.callback, .unlock .blocks, .unlock .execute]
          else [.unlock .blocks]
  else [.callback]

/-- What the step `e` does with the mutexes. -/
def lockOps (s : Scheduler) : Event → List LockOp
  | .executeBlock number => s.executeBlockOps number
  | .executeFailed => [.unlock .execute, .callback]
  | .setResult _ _ => []
  | .executeSucceeded => [.unlock .execute, .callback]
  | .commitBlock _ => if s.commit = .free then [.lock .commit] else []
  | .commitBusy _ => if s.blocks = [] then [] else [.callback]
  | .commitTest => []
  | .commitRefused => [.unlock .commit, .callback]
  | .commitDone .committed => []
  | .commitDone (.failed _) => [.unlock .commit, .callback]
  -- the lock goes with the last copy of the callback
  | .commitDone .rolledBack => [.unlock .commit]
  | .ledgerConfigDone ok =>
      if ok then
        if s.txNotifier then [] else [.lock .blocks, .unlock .blocks]
      else [.unlock .commit, .callback]
  | .ledgerConfigLost => [.unlock .commit]
  | .notified _ => [.lock .blocks, .unlock .blocks]
  | .commitAnswered => [.unlock .commit, .callback]
  | .registerTransactionNotifier => []

/-- Whose step it is. -/
def requester (s : Scheduler) : Event → Requester
  | .executeBlock _ => if s.execute = .free then .executing else .refused
  | .executeFailed | .setResult _ _ | .executeSucceeded => .executing
  | .commitBlock _ => if s.commit = .free then .committing else .refused
  | .commitTest | .commitRefused | .commitDone _ | .ledgerConfigDone _ | .ledgerConfigLost
  | .notified _ | .commitAnswered => .committing
  | .commitBusy _ | .registerTransactionNotifier => .refused

end Scheduler

/-- A scheduler with the mutexes its two requests hold, and those that were held at each
call of a caller's callback. -/
structure LockedScheduler where
  scheduler : Scheduler := {}
  executing : List SchedulerMutex := []
  committing : List SchedulerMutex := []
  atCallback : List (List SchedulerMutex) := []

/-- What a request keeps while it executes a block. -/
def ExecuteStage.held : ExecuteStage → List SchedulerMutex
  | .free => []
  | _ => [.execute]

/-- What a request keeps while it commits a block. -/
def CommitStage.held : CommitStage → List SchedulerMutex
  | .free => []
  | _ => [.commit]

namespace LockedScheduler

open Scheduler

/-- What the requester of `e` holds before the step. -/
def held (l : LockedScheduler) (e : Event) : List SchedulerMutex :=
  match l.scheduler.requester e with
  | .executing => l.executing
  | .committing => l.committing
  | .refused => []

/-- The replay of the step `e`. -/
def replayed (l : LockedScheduler) (e : Event) :
    List SchedulerMutex × List (List SchedulerMutex) :=
  replay (l.held e) (l.scheduler.lockOps e)

/-- The step `e` to `s'`. -/
def next (l : LockedScheduler) (e : Event) (s' : Scheduler) : LockedScheduler :=
  let l' := { l with scheduler := s', atCallback := l.atCallback ++ (l.replayed e).2 }
  match l.scheduler.requester e with
  | .executing => { l' with executing := (l.replayed e).1 }
  | .committing => { l' with committing := (l.replayed e).1 }
  | .refused => l'

/-- A run of the scheduler from the start, with the states in which its steps are
made. -/
inductive Run : List (Scheduler × Event) → LockedScheduler → Prop
  | start : Run [] {}
  | step {trace : List (Scheduler × Event)} {l : LockedScheduler} {e : Event} {s' : Scheduler} :
      Run trace l → Step l.scheduler e s' → Run (trace ++ [(l.scheduler, e)]) (l.next e s')

variable {l : LockedScheduler} {e : Event} {s s' : Scheduler} {trace : List (Scheduler × Event)}

theorem scheduler_next (l : LockedScheduler) (e : Event) (s' : Scheduler) :
    (l.next e s').scheduler = s' := by
  unfold next
  split <;> rfl

theorem atCallback_next (l : LockedScheduler) (e : Event) (s' : Scheduler) :
    (l.next e s').atCallback = l.atCallback ++ (l.replayed e).2 := by
  unfold next
  split <;> rfl

theorem Run.reachable (h : Run trace l) : Reachable l.scheduler := by
  induction h with
  | start => exact .refl
  | step _ hstep ih =>
      rw [scheduler_next]
      exact ih.tail ⟨_, hstep⟩

/-! ### One step -/

/-- `executeBlock` comes to the refusal that answers with the locks held: nobody is
executing, the queue is empty and the number was executed before. -/
def AnswersLocked (s : Scheduler) : Event → Prop
  | .executeBlock number => s.execute = .free ∧ s.blocks = [] ∧ s.lastExecutedBlockNumber ≠ 0 ∧
      number ≤ s.lastExecutedBlockNumber
  | _ => False

instance (s : Scheduler) : ∀ e : Event, Decidable (AnswersLocked s e)
  | .executeBlock _ => inferInstanceAs (Decidable (_ ∧ _))
  | .executeFailed | .setResult _ _ | .executeSucceeded | .commitBlock _ | .commitBusy _
  | .commitTest | .commitRefused | .commitDone _ | .ledgerConfigDone _ | .ledgerConfigLost
  | .notified _ | .commitAnswered | .registerTransactionNotifier =>
      inferInstanceAs (Decidable False)

/-- The mutexes of a call of the callback, as the scheduler's model has them. -/
def heldOf : Answer → List SchedulerMutex
  | .execute _ _ _ held => held
  | .commit _ _ held => held

/-- A waiting request holds its own mutex and no other; the held mutexes of the model
are those of the lock operations. -/
structure Inv (l : LockedScheduler) : Prop where
  executing : l.executing = l.scheduler.execute.held
  committing : l.committing = l.scheduler.commit.held
  atCallback : l.atCallback = l.scheduler.answers.map heldOf

theorem Inv.start : Inv {} := ⟨rfl, rfl, rfl⟩

/-- A step of the `executeBlock` under way or of a new one. -/
theorem Inv.stepExecuting (h : Inv l) (hreq : l.scheduler.requester e = .executing)
    (hheld : (l.replayed e).1 = s'.execute.held) (hcommit : s'.commit = l.scheduler.commit)
    (hanswers : s'.answers.map heldOf = l.scheduler.answers.map heldOf ++ (l.replayed e).2) :
    Inv (l.next e s') := by
  simp only [next, hreq]
  refine ⟨hheld, ?_, ?_⟩
  · dsimp only
    rw [hcommit, h.committing]
  · dsimp only
    rw [hanswers, h.atCallback]

/-- A step of the `commitBlock` under way or of a new one. -/
theorem Inv.stepCommitting (h : Inv l) (hreq : l.scheduler.requester e = .committing)
    (hheld : (l.replayed e).1 = s'.commit.held) (hexecute : s'.execute = l.scheduler.execute)
    (hanswers : s'.answers.map heldOf = l.scheduler.answers.map heldOf ++ (l.replayed e).2) :
    Inv (l.next e s') := by
  simp only [next, hreq]
  refine ⟨?_, hheld, ?_⟩
  · dsimp only
    rw [hexecute, h.executing]
  · dsimp only
    rw [hanswers, h.atCallback]

/-- A call that gets no mutex. -/
theorem Inv.stepRefused (h : Inv l) (hreq : l.scheduler.requester e = .refused)
    (hexecute : s'.execute = l.scheduler.execute) (hcommit : s'.commit = l.scheduler.commit)
    (hanswers : s'.answers.map heldOf = l.scheduler.answers.map heldOf ++ (l.replayed e).2) :
    Inv (l.next e s') := by
  simp only [next, hreq]
  refine ⟨?_, ?_, ?_⟩
  · dsimp only
    rw [hexecute, h.executing]
  · dsimp only
    rw [hcommit, h.committing]
  · dsimp only
    rw [hanswers, h.atCallback]

/-- What a free `executeBlock` does with its mutexes and answers, on each path. -/
theorem executeBlock_replay (hqueue : QueueInv s) (hfree : s.execute = .free)
    (number : BlockNumber) :
    (replay [] (s.executeBlockOps number)).1 = (s.executeBlock number).execute.held ∧
    (s.executeBlock number).answers.map heldOf
      = s.answers.map heldOf ++ (replay [] (s.executeBlockOps number)).2 ∧
    (s.executeBlock number).commit = s.commit ∧
    ((∀ held ∈ (replay [] (s.executeBlockOps number)).2, held = []) ↔
      ¬ AnswersLocked s (.executeBlock number)) := by
  have hanswer : ∀ a, (s.answer a).execute.held = [] := fun a => by
    show s.execute.held = []
    rw [hfree]
    rfl
  rcases hfront : s.blocks.head? with _ | front
  · -- the queue is empty
    have hnil : s.blocks = [] := List.head?_eq_none_iff.mp hfront
    have hlocked : AnswersLocked s (.executeBlock number) ↔
        s.lastExecutedBlockNumber ≠ 0 ∧ number ≤ s.lastExecutedBlockNumber := by
      simp [AnswersLocked, hfree, hnil]
    rw [hlocked]
    simp only [executeBlock, executeBlockOps, if_pos hfree, hfront]
    split_ifs with hlast
    · refine ⟨(hanswer _).symm, List.map_append, rfl, iff_of_false ?_ (not_not.mpr hlast)⟩
      intro hall
      exact absurd (hall [.execute, .blocks] List.mem_cons_self) (by decide)
    · exact ⟨rfl, (List.append_nil _).symm, rfl, iff_of_true (List.forall_mem_nil _) hlast⟩
  · obtain ⟨back, hback⟩ : ∃ back, s.blocks.getLast? = some back := by
      refine ⟨_, List.getLast?_eq_some_getLast ?_⟩
      rintro hnil
      rw [hnil] at hfront
      cases hfront
    have hlocked : ¬ AnswersLocked s (.executeBlock number) := by
      rintro ⟨-, hnil, -⟩
      rw [hnil] at hfront
      cases hfront
    have hone : ∀ held ∈ (replay [] [.lock .execute, .lock .blocks, .unlock .blocks,
        .unlock .execute, .callback]).2, held = [] := by decide
    by_cases hin : front.number ≤ number ∧ number ≤ back.number
    · -- the entry is found, since the numbers of the queue are consecutive
      obtain ⟨b, hb, rfl⟩ := hqueue.consecutive.exists_of_between hfront hback hin.1 hin.2
      rw [hqueue.executeBlock_of_mem hfree hb]
      simp only [executeBlockOps, if_pos hfree, hfront, hback, if_pos hin]
      exact ⟨(hanswer _).symm, List.map_append, rfl, iff_of_true hone hlocked⟩
    · simp only [executeBlock, executeBlockOps, if_pos hfree, hfront, hback, if_neg hin]
      split_ifs with hnext
      · exact ⟨(hanswer _).symm, List.map_append, rfl, iff_of_true hone hlocked⟩
      · exact ⟨rfl, (List.append_nil _).symm, rfl, iff_of_true (List.forall_mem_nil _) hlocked⟩

/-- The step keeps the invariant and answers, if it does, without a mutex. -/
structure KeepsUnlocked (l : LockedScheduler) (e : Event) (s' : Scheduler) : Prop where
  inv : Inv (l.next e s')
  unlocked : ∀ held ∈ (l.replayed e).2, held = []

theorem KeepsUnlocked.and_iff (h : KeepsUnlocked l e s') (hnot : ¬ AnswersLocked l.scheduler e) :
    Inv (l.next e s') ∧
      ((∀ held ∈ (l.replayed e).2, held = []) ↔ ¬ AnswersLocked l.scheduler e) :=
  ⟨h.inv, iff_of_true h.unlocked hnot⟩

/-- Letting go of its own mutex, a request answers with none. -/
theorem replayed_answer {mutex : SchedulerMutex} (hheld : l.held e = [mutex])
    (hops : l.scheduler.lockOps e = [.unlock mutex, .callback]) : l.replayed e = ([], [[]]) := by
  rw [replayed, hops, hheld]
  cases mutex <;> rfl

theorem ExecuteStage.held_of_ne {stage : ExecuteStage} (h : stage ≠ .free) :
    stage.held = [.execute] := by
  cases stage with
  | free => exact absurd rfl h
  | running id number => rfl
  | finished id header => rfl

theorem CommitStage.held_of_ne {stage : CommitStage} (h : stage ≠ .free) :
    stage.held = [.commit] := by
  cases stage with
  | free => exact absurd rfl h
  | testing number => rfl
  | refusing number error => rfl
  | committing id number => rfl
  | querying id number => rfl
  | notifying id number => rfl
  | popped number error => rfl

theorem Inv.held_executing (h : Inv l) (hreq : l.scheduler.requester e = .executing) :
    l.held e = l.scheduler.execute.held := by
  rw [held, hreq, ← h.executing]

theorem Inv.held_committing (h : Inv l) (hreq : l.scheduler.requester e = .committing) :
    l.held e = l.scheduler.commit.held := by
  rw [held, hreq, ← h.committing]

/-- The `executeBlock` under way answers. -/
theorem Inv.answersExecuting (h : Inv l) (hne : l.scheduler.execute ≠ .free)
    (hreq : l.scheduler.requester e = .executing)
    (hops : l.scheduler.lockOps e = [.unlock .execute, .callback]) (hfree : s'.execute = .free)
    (hcommit : s'.commit = l.scheduler.commit)
    (hanswers : s'.answers.map heldOf = l.scheduler.answers.map heldOf ++ [[]]) :
    KeepsUnlocked l e s' := by
  have hreplay : l.replayed e = ([], [[]]) :=
    replayed_answer ((h.held_executing hreq).trans (ExecuteStage.held_of_ne hne)) hops
  refine ⟨h.stepExecuting hreq ?_ hcommit ?_, ?_⟩
  · rw [hreplay, hfree]
    rfl
  · rw [hreplay, hanswers]
  · rw [hreplay]
    simp

/-- The `commitBlock` under way answers. -/
theorem Inv.answersCommitting (h : Inv l) (hne : l.scheduler.commit ≠ .free)
    (hreq : l.scheduler.requester e = .committing)
    (hops : l.scheduler.lockOps e = [.unlock .commit, .callback]) (hfree : s'.commit = .free)
    (hexecute : s'.execute = l.scheduler.execute)
    (hanswers : s'.answers.map heldOf = l.scheduler.answers.map heldOf ++ [[]]) :
    KeepsUnlocked l e s' := by
  have hreplay : l.replayed e = ([], [[]]) :=
    replayed_answer ((h.held_committing hreq).trans (CommitStage.held_of_ne hne)) hops
  refine ⟨h.stepCommitting hreq ?_ hexecute ?_, ?_⟩
  · rw [hreplay, hfree]
    rfl
  · rw [hreplay, hanswers]
  · rw [hreplay]
    simp

/-- The `commitBlock` under way goes on without an answer. -/
theorem Inv.continuesCommitting (h : Inv l) (hreq : l.scheduler.requester e = .committing)
    (hreplay : replay l.scheduler.commit.held (l.scheduler.lockOps e) = (s'.commit.held, []))
    (hexecute : s'.execute = l.scheduler.execute) (hanswers : s'.answers = l.scheduler.answers) :
    KeepsUnlocked l e s' := by
  rw [← h.held_committing hreq, ← replayed] at hreplay
  refine ⟨h.stepCommitting hreq ?_ hexecute ?_, ?_⟩
  · rw [hreplay]
  · rw [hreplay, hanswers, List.append_nil]
  · rw [hreplay]
    simp

/-- A call that gets no mutex is answered, if at all, without one. -/
theorem Inv.answersRefused (h : Inv l) (hreq : l.scheduler.requester e = .refused)
    {calls : List (List SchedulerMutex)} (hreplay : replay [] (l.scheduler.lockOps e) = ([], calls))
    (hcalls : ∀ held ∈ calls, held = []) (hexecute : s'.execute = l.scheduler.execute)
    (hcommit : s'.commit = l.scheduler.commit)
    (hanswers : s'.answers.map heldOf = l.scheduler.answers.map heldOf ++ calls) :
    KeepsUnlocked l e s' := by
  have hheld : l.held e = [] := by rw [held, hreq]
  rw [← hheld, ← replayed] at hreplay
  refine ⟨h.stepRefused hreq hexecute hcommit ?_, ?_⟩
  · rw [hreplay, hanswers]
  · rw [hreplay]
    exact hcalls

/-! ### The calls -/

/-- Only the refusal of a number executed before is answered with the mutexes held. -/
theorem Inv.executeBlock (h : Inv l) (hqueue : QueueInv l.scheduler) (number : BlockNumber) :
    Inv (l.next (.executeBlock number) (l.scheduler.executeBlock number)) ∧
      ((∀ held ∈ (l.replayed (.executeBlock number)).2, held = []) ↔
        ¬ AnswersLocked l.scheduler (.executeBlock number)) := by
  by_cases hfree : l.scheduler.execute = .free
  · have hreq : l.scheduler.requester (.executeBlock number) = .executing := if_pos hfree
    obtain ⟨hheld, hanswers, hcommit, hlocked⟩ := executeBlock_replay hqueue hfree number
    have hreplay : l.replayed (.executeBlock number)
        = replay [] (l.scheduler.executeBlockOps number) := by
      rw [replayed, h.held_executing hreq, hfree]
      rfl
    refine ⟨h.stepExecuting hreq ?_ hcommit ?_, ?_⟩
    · rw [hreplay, hheld]
    · rw [hreplay, hanswers]
    · rw [hreplay]
      exact hlocked
  · have hanswer : l.scheduler.executeBlock number = l.scheduler.answer (.execute number
        (some (SchedulerError.InvalidStatus.error "Another block is executing!")) none []) :=
      if_neg hfree
    have hreq : l.scheduler.requester (.executeBlock number) = .refused := if_neg hfree
    have hops : l.scheduler.lockOps (.executeBlock number) = [.callback] := if_neg hfree
    rw [hanswer]
    refine KeepsUnlocked.and_iff ?_ fun hlocked => hfree hlocked.1
    apply h.answersRefused hreq
    · rw [hops]
      rfl
    · simp [replay]
    · rfl
    · rfl
    · exact List.map_append

/-- `try_to_lock` of `commitBlock`. -/
theorem Inv.commitBlock (h : Inv l) (number : BlockNumber) :
    KeepsUnlocked l (.commitBlock number) (l.scheduler.commitBlock number) := by
  by_cases hfree : l.scheduler.commit = .free
  · have heq : l.scheduler.commitBlock number
        = { l.scheduler with commit := .testing number } := if_pos hfree
    rw [heq]
    have hreq : l.scheduler.requester (.commitBlock number) = .committing := if_pos hfree
    apply h.continuesCommitting hreq
    · rw [lockOps, if_pos hfree, hfree]
      rfl
    · rfl
    · rfl
  · have heq : l.scheduler.commitBlock number
        = { l.scheduler with busy := l.scheduler.busy ++ [number] } := if_neg hfree
    rw [heq]
    have hreq : l.scheduler.requester (.commitBlock number) = .refused := if_neg hfree
    apply h.answersRefused hreq
    · rw [lockOps, if_neg hfree]
      rfl
    · exact List.forall_mem_nil _
    · rfl
    · rfl
    · exact (List.append_nil _).symm

/-- The call that found the mutex taken looks at the queue. -/
theorem Inv.commitBusy (h : Inv l) (number : BlockNumber) :
    KeepsUnlocked l (.commitBusy number) (l.scheduler.commitBusy number) := by
  rcases hblocks : l.scheduler.blocks with _ | ⟨front, rest⟩
  · have heq : l.scheduler.commitBusy number
        = { l.scheduler with busy := l.scheduler.busy.erase number
                             fault := some .emptyQueue } := by
      simp only [Scheduler.commitBusy, hblocks]
    rw [heq]
    apply h.answersRefused rfl
    · rw [lockOps, if_pos hblocks]
      rfl
    · exact List.forall_mem_nil _
    · rfl
    · rfl
    · exact (List.append_nil _).symm
  · have hne : l.scheduler.blocks ≠ [] := by simp [hblocks]
    have heq : l.scheduler.commitBusy number
        = { l.scheduler with busy := l.scheduler.busy.erase number }.answer
          (.commit number (some (SchedulerError.InvalidStatus.error
            ("Another block is committing! Block number: " ++ toString front.number))) []) := by
      simp only [Scheduler.commitBusy, hblocks]
    rw [heq]
    apply h.answersRefused rfl
    · rw [lockOps, if_neg hne]
      rfl
    · simp [replay]
    · rfl
    · rfl
    · exact List.map_append

/-! ### The commit under way -/

/-- The tests of the queue keep the mutex. -/
theorem Inv.commitTest (h : Inv l) {number : BlockNumber}
    (htesting : l.scheduler.commit = .testing number) :
    KeepsUnlocked l .commitTest (l.scheduler.commitTest number) := by
  rcases commitTest_cases l.scheduler number with ⟨error, heq⟩ | ⟨front, bs, -, -, heq⟩
  all_goals
    rw [heq]
    apply h.continuesCommitting rfl
    · rw [htesting]
      rfl
    · rfl
    · rfl

/-- The mutex goes with the last copy of a callback that is never called. -/
theorem Inv.lost (h : Inv l) (hreq : l.scheduler.requester e = .committing)
    (hne : l.scheduler.commit ≠ .free) (hops : l.scheduler.lockOps e = [.unlock .commit]) :
    KeepsUnlocked l e { l.scheduler with commit := .free } := by
  apply h.continuesCommitting hreq
  · rw [hops, CommitStage.held_of_ne hne]
    rfl
  · rfl
  · rfl

theorem popFront_frame (s : Scheduler) (number : BlockNumber) (error : Option Error) :
    (s.popFront number error).commit = .popped number error ∧
      (s.popFront number error).execute = s.execute ∧
      (s.popFront number error).answers = s.answers := by
  unfold popFront
  split
  · exact ⟨rfl, rfl, rfl⟩
  · exact ⟨rfl, rfl, rfl⟩

/-- `pop_front` under its own mutex. -/
theorem Inv.popFront (h : Inv l) (hreq : l.scheduler.requester e = .committing)
    (hne : l.scheduler.commit ≠ .free)
    (hops : l.scheduler.lockOps e = [.lock .blocks, .unlock .blocks]) (number : BlockNumber)
    (error : Option Error) : KeepsUnlocked l e (l.scheduler.popFront number error) := by
  obtain ⟨hcommit, hexecute, hanswers⟩ := popFront_frame l.scheduler number error
  refine h.continuesCommitting hreq ?_ hexecute hanswers
  rw [hops, hcommit, CommitStage.held_of_ne hne]
  rfl

/-- The callback of `asyncCommit`. -/
theorem Inv.commitDone (h : Inv l) {id : Nat} {number : BlockNumber}
    (hcommitting : l.scheduler.commit = .committing id number) (result : CommitResult) :
    KeepsUnlocked l (.commitDone result) (l.scheduler.commitDone id number result) := by
  have hne : l.scheduler.commit ≠ .free := by simp [hcommitting]
  cases result with
  | committed =>
      apply h.continuesCommitting rfl
      · rw [hcommitting]
        rfl
      · rfl
      · rfl
  | failed storage => exact h.answersCommitting hne rfl rfl rfl rfl List.map_append
  | rolledBack => exact h.lost rfl hne rfl

/-- The callback of `asyncGetLedgerConfig`. -/
theorem Inv.ledgerConfigDone (h : Inv l) {id : Nat} {number : BlockNumber}
    (hquerying : l.scheduler.commit = .querying id number) (ok : Bool) :
    KeepsUnlocked l (.ledgerConfigDone ok) (l.scheduler.ledgerConfigDone id number ok) := by
  have hne : l.scheduler.commit ≠ .free := by simp [hquerying]
  cases ok with
  | false => exact h.answersCommitting hne rfl rfl rfl rfl List.map_append
  | true =>
      by_cases hnotifier : l.scheduler.txNotifier = true
      · have heq : l.scheduler.ledgerConfigDone id number true
            = { l.scheduler with commit := .notifying id number } := if_pos hnotifier
        rw [heq]
        apply h.continuesCommitting rfl
        · rw [CommitStage.held_of_ne hne, lockOps, if_pos rfl, if_pos hnotifier]
          rfl
        · rfl
        · rfl
      · have heq : l.scheduler.ledgerConfigDone id number true
            = l.scheduler.popFront number none := if_neg hnotifier
        rw [heq]
        apply h.popFront rfl hne
        rw [lockOps, if_pos rfl, if_neg hnotifier]

theorem Step.inv (h : Inv l) (hqueue : QueueInv l.scheduler) (hstep : Step l.scheduler e s') :
    Inv (l.next e s') ∧
      ((∀ held ∈ (l.replayed e).2, held = []) ↔ ¬ AnswersLocked l.scheduler e) := by
  cases hstep with
  | executeBlock number => exact h.executeBlock hqueue number
  | executeFailed hrunning =>
      have hne : l.scheduler.execute ≠ .free := by simp [hrunning]
      refine KeepsUnlocked.and_iff ?_ id
      exact h.answersExecuting hne rfl rfl rfl rfl List.map_append
  | setResult stateRoot gasUsed hrunning =>
      -- the step takes no mutex and answers nobody
      have hheld : l.executing = [.execute] := by
        rw [h.executing, hrunning]
        rfl
      refine KeepsUnlocked.and_iff ⟨?_, List.forall_mem_nil _⟩ id
      exact h.stepExecuting rfl hheld rfl (List.append_nil _).symm
  | executeSucceeded hfinished =>
      have hne : l.scheduler.execute ≠ .free := by simp [hfinished]
      refine KeepsUnlocked.and_iff ?_ id
      exact h.answersExecuting hne rfl rfl rfl rfl List.map_append
  | commitBlock number => exact (h.commitBlock number).and_iff id
  | commitBusy => exact (h.commitBusy _).and_iff id
  | commitTest htesting => exact (h.commitTest htesting).and_iff id
  | commitRefused hrefusing =>
      have hne : l.scheduler.commit ≠ .free := by simp [hrefusing]
      refine KeepsUnlocked.and_iff ?_ id
      exact h.answersCommitting hne rfl rfl rfl rfl List.map_append
  | commitDone result hcommitting => exact (h.commitDone hcommitting result).and_iff id
  | ledgerConfigDone ok hquerying => exact (h.ledgerConfigDone hquerying ok).and_iff id
  | ledgerConfigLost hquerying =>
      have hne : l.scheduler.commit ≠ .free := by simp [hquerying]
      exact (h.lost rfl hne rfl).and_iff id
  | notified error hnotifying =>
      have hne : l.scheduler.commit ≠ .free := by simp [hnotifying]
      exact (h.popFront rfl hne rfl _ error).and_iff id
  | commitAnswered hpopped =>
      have hne : l.scheduler.commit ≠ .free := by simp [hpopped]
      refine KeepsUnlocked.and_iff ?_ id
      exact h.answersCommitting hne rfl rfl rfl rfl List.map_append
  | registerTransactionNotifier =>
      refine KeepsUnlocked.and_iff ⟨?_, List.forall_mem_nil _⟩ id
      exact h.stepRefused rfl rfl rfl (List.append_nil _).symm

/-! ### Whole runs -/

theorem Run.inv (h : Run trace l) : Inv l := by
  induction h with
  | start => exact .start
  | step hrun hstep ih => exact (Step.inv ih hrun.reachable.queueInv hstep).1

theorem Run.unlocked_iff (h : Run trace l) :
    (∀ held ∈ l.atCallback, held = []) ↔ ∀ p ∈ trace, ¬ AnswersLocked p.1 p.2 := by
  induction h with
  | start => simp
  | step hrun hstep ih =>
      have hstep' := (Step.inv hrun.inv hrun.reachable.queueInv hstep).2
      rw [atCallback_next, List.forall_mem_append, List.forall_mem_append, ih, hstep',
        List.forall_mem_singleton]

/-- The callers of a run are answered with no mutex of their request held, so that no
request made inside the callback takes a mutex that the answered one has, exactly if no
`executeBlock` of the run comes to the refusal of a number executed before. -/
theorem answered_unlocked_iff (h : Run trace l) :
    (∀ held ∈ l.atCallback, held = [] ∧
      ∀ (s : Scheduler) e mutex, .lock mutex ∈ s.lockOps e → mutex ∉ held) ↔
      ∀ p ∈ trace, ¬ AnswersLocked p.1 p.2 := by
  rw [← h.unlocked_iff]
  refine forall₂_congr fun held _ => ⟨And.left, ?_⟩
  rintro rfl
  exact ⟨rfl, fun _ _ _ _ => List.not_mem_nil⟩

/-- Block 1 is executed, then asked for again while it is committing. -/
theorem answered_unlocked_iff_two : ∃ trace l, Run trace l ∧ l.atCallback = [[], []] ∧
    ∀ held ∈ l.atCallback, held = [] ∧
      ∀ (s : Scheduler) e mutex, .lock mutex ∈ s.lockOps e → mutex ∉ held := by
  have hrun := ((((Run.start.step (.executeBlock 1)).step (.setResult 7 0 rfl)).step
    (.executeSucceeded rfl)).step (.commitBlock 1)).step (.executeBlock 1)
  exact ⟨_, _, hrun, rfl, (answered_unlocked_iff hrun).mpr (by decide)⟩

/-- Block 1 is executed and committed, then asked for again: the refusal is answered with
the mutexes of `executeBlock` held. -/
theorem executed_block_answers_locked : ∃ trace l, Run trace l ∧
    l.atCallback = [[], [], [.execute, .blocks]] ∧
    .lock .execute ∈ l.scheduler.lockOps (.executeBlock 2) := by
  have hrun := ((((((((Run.start.step (.executeBlock 1)).step (.setResult 7 0 rfl)).step
    (.executeSucceeded rfl)).step (.commitBlock 1)).step (.commitTest rfl)).step
    (.commitDone .committed rfl)).step (.ledgerConfigDone true rfl)).step
    (.commitAnswered rfl)).step (.executeBlock 1)
  exact ⟨_, _, hrun, rfl, by decide⟩

end LockedScheduler

end BcosScheduler
