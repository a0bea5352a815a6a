/-
BcosScheduler/CalledAgain.lean

`SchedulerImpl` with callbacks that are called more than once.

`batchGetHashes`, the two-phase commit and `asyncGetLedgerConfig` collect their
replies without a once-flag: if the last reply is counted while another handler
stands between its count and its test, both handlers call the continuation
(`BcosScheduler.BatchFanIn`, `BcosScheduler.LedgerConfig`).  So the lambdas that
`executeBlock` hands to `asyncExecute`, and `commitBlock` to `asyncCommit` and to
`asyncGetLedgerConfig`, may be called a second time.  They keep copies of what
they have captured, so a second call does what the first one did, save that
`unlock` throws when the request does not own its mutex any more.

As long as every callback is called once the steps are those of
`BcosScheduler.Scheduler` (`Inv`): `m_blocks` is sound (`blocks_consecutive`) and
clean steps commit every number at most once (`commitBlock_at_most_once`).  A
second call pops an entry whose commit was not started
(`second_call_pops_uncommitted`).
-/
import BcosScheduler.BlockQueue
import BcosScheduler.LedgerConfig

namespace BcosScheduler

/-! ### Second calls -/

/-- The handlers of the number and of the hash test after both have counted: the
callback of `asyncGetLedgerConfig` is called twice. -/
theorem LedgerQueries.called_twice : ∃ (config config' : LedgerConfig Nat) (s : LedgerQueries Nat),
    Steps config s ∧ s.callbacks = [.ok config', .ok config'] := by
  have hasked : Steps (⟨[], [], 0, 0, 0, 0⟩ : LedgerConfig Nat) _ := .single (.askHash none 1 rfl)
  have hnumber : Steps _ _ := hasked.tail (.collectNumber rfl rfl)
  have hlists : Steps _ _ := (hnumber.tail (.collect .sealers _ (by decide) (by decide)
    (.sealers [4]) rfl)).tail (.collect .observers _ (by decide) (by decide) (.observers []) rfl)
  have hvalues : Steps _ _ := (hlists.tail (.collect .txCountLimit _ (by decide) (by decide)
    (.txCountLimit "1000") rfl)).tail
      (.collect .leaderPeriod _ (by decide) (by decide) (.leaderPeriod "1") rfl)
  have hstored : Steps _ _ := hvalues.tail (.collect .blockHash _ (by decide) (by decide)
    (.blockHash 9) rfl)
  have hcounted : Steps _ _ := (((((hstored.tail (.count .sealers rfl)).tail
    (.count .observers rfl)).tail (.count .txCountLimit rfl)).tail (.count .leaderPeriod rfl)).tail
    (.count .blockNumber rfl)).tail (.count .blockHash rfl)
  have htested : Steps _ _ := (hcounted.tail (.test .blockNumber rfl)).tail (.test .blockHash rfl)
  exact ⟨_, ⟨[4], [], 1000, 1, 1, 9⟩, _, htested, by decide⟩

/-- A callback that may be called again; those of `commitBlock` with the request
whose lock they have captured. -/
inductive Callback
  | execute (id : Nat) (number : BlockNumber)
  | commit (request id : Nat) (number : BlockNumber)
  | ledgerConfig (request id : Nat) (number : BlockNumber)
  | notify (request id : Nat) (number : BlockNumber)
  deriving DecidableEq, Repr

/-- The scheduler with the callbacks that were called.  `request` is the
`commitBlock` request that took the commit mutex last, `started` tells which
entry each request started to commit, `recalled` whether there was a second
call. -/
structure CalledAgain where
  scheduler : Scheduler := {}
  request : Nat := 0
  started : List (Nat × Nat) := []
  callbacks : List Callback := []
  recalled : Bool := false
  deriving DecidableEq, Repr

namespace CalledAgain

open Scheduler (Reachable QueueInv Consecutive CommitInv)
open Scheduler.CommitStage (entry)

/-- The callback that a step calls for the first time. -/
def calls (c : CalledAgain) : Scheduler.Event → List Callback
  | .executeFailed =>
      match c.scheduler.execute with
      | .running id number => [.execute id number]
      | _ => []
  | .executeSucceeded =>
      match c.scheduler.execute with
      | .finished id header => [.execute id header.number]
      | _ => []
  | .commitDone .rolledBack => []
  | .commitDone _ =>
      match c.scheduler.commit with
      | .committing id number => [.commit c.request id number]
      | _ => []
  | .ledgerConfigDone _ =>
      match c.scheduler.commit with
      | .querying id number => [.ledgerConfig c.request id number]
      | _ => []
  | _ => []

/-- The request that took the commit mutex last, after the step. -/
def holder (c : CalledAgain) : Scheduler.Event → Nat
  | .commitBlock _ => if c.scheduler.commit = .free then c.request + 1 else c.request
  | _ => c.request

/-- The entry whose commit is started by the step to `s`. -/
def starts (c : CalledAgain) (s : Scheduler) : Scheduler.Event → List (Nat × Nat)
  | .commitTest => (entry s.commit).toList.map fun p => (c.request, p.1)
  | _ => []

/-- A step of the scheduler to `s`, in which no callback is called again. -/
def once (c : CalledAgain) (e : Scheduler.Event) (s : Scheduler) : CalledAgain :=
  { c with scheduler := s
           request := c.holder e
           started := c.started ++ c.starts s e
           callbacks := c.callbacks ++ c.calls e }

def again (c : CalledAgain) : CalledAgain := { c with recalled := true }

/-- The second `executeLock->unlock()` throws; before that `m_result` and the last
executed number are set again. -/
def executeAgain (c : CalledAgain) (id : Nat) (header : BlockHeader) : CalledAgain :=
  if id ∈ c.scheduler.blocks.map QueuedBlock.id then
    { c with scheduler := { c.scheduler with
      blocks := c.scheduler.blocks.map fun b =>
        if b.id = id then { b with result := some header } else b
      lastExecutedBlockNumber := header.number } }
  else { c with scheduler := { c.scheduler with fault := some .freedBlock } }

/-- What is still to come of a request whose mutex a second call has freed. -/
def remains (request : Nat) : CommitStage → List Callback
  | .querying id number => [.ledgerConfig request id number]
  | .notifying id number => [.notify request id number]
  | _ => []

/-- The mutex is that of the request. -/
def Owns (c : CalledAgain) (request : Nat) : Prop :=
  c.scheduler.commit ≠ .free ∧ c.request = request

instance (c : CalledAgain) (request : Nat) : Decidable (c.Owns request) :=
  inferInstanceAs (Decidable (_ ∧ _))

/-- `commitLock->unlock()` and the answer; the unlock throws if the request does not
own the mutex. -/
def release (c : CalledAgain) (request : Nat) (number : BlockNumber) (error : Option Error) :
    CalledAgain :=
  if c.Owns request then
    { c with scheduler := c.scheduler.commitAnswered number error
             callbacks := c.callbacks ++ remains request c.scheduler.commit }
  else c

/-- `m_blocks.pop_front()` and what follows it. -/
def popFront (c : CalledAgain) (request : Nat) (number : BlockNumber) (error : Option Error) :
    CalledAgain :=
  match c.scheduler.blocks with
  | [] => { c with scheduler := { c.scheduler with fault := some .emptyQueue } }
  | front :: rest =>
      { c with scheduler := { c.scheduler with
        blocks := rest
        fault := if c.scheduler.execute = ExecuteStage.running front.id front.number ∨
              c.scheduler.commit = CommitStage.committing front.id front.number then
            some .freedBlock
          else c.scheduler.fault } }.release request number error

/-- The callback of `asyncCommit`, called again. -/
def commitAgain (c : CalledAgain) (request id : Nat) (number : BlockNumber) :
    CommitResult → CalledAgain
  | .committed =>
      { c with scheduler := { c.scheduler with stored := c.scheduler.stored ++ [id]
                                               committed := c.scheduler.committed ++ [number] }
               callbacks := c.callbacks ++ [.ledgerConfig request id number] }
  | .failed storage =>
      { c with scheduler := { c.scheduler with
        stored := if storage then c.scheduler.stored ++ [id] else c.scheduler.stored } }.release
        request number (some (SchedulerError.UnknownError.error "CommitBlock error"))
  -- a rollback that succeeds does not call
  | .rolledBack => c

/-- The callback of `asyncGetLedgerConfig`, called again. -/
def ledgerConfigAgain (c : CalledAgain) (request id : Nat) (number : BlockNumber) (ok : Bool) :
    CalledAgain :=
  if ok then
    if c.scheduler.txNotifier ∧ c.scheduler.blocks ≠ [] then
      { c with callbacks := c.callbacks ++ [.notify request id number] }
    else c.popFront request number none
  else c.release request number
    (some (SchedulerError.UnknownError.error "Get system config error"))

/-- What happens to the scheduler. -/
inductive Event
  | once (e : Scheduler.Event)
  | executeAgain (id : Nat) (header : BlockHeader)
  | commitAgain (request id : Nat) (number : BlockNumber) (result : CommitResult)
  | ledgerConfigAgain (request id : Nat) (number : BlockNumber) (ok : Bool)
  | notifyAgain (request id : Nat) (number : BlockNumber) (error : Option Error)
  deriving DecidableEq, Repr

/-- No callback is called again. -/
def Event.isOnce : Event → Bool
  | .once _ => true
  | _ => false

inductive Step : CalledAgain → Event → CalledAgain → Prop
  | once {c : CalledAgain} {e : Scheduler.Event} {s : Scheduler} :
      Scheduler.Step c.scheduler e s → Step c (.once e) (c.once e s)
  | executeAgain {c : CalledAgain} {id : Nat} {number : BlockNumber} (stateRoot : H256)
      (gasUsed : Nat) : .execute id number ∈ c.callbacks →
      Step c (.executeAgain id ⟨number, stateRoot, gasUsed⟩)
        (c.again.executeAgain id ⟨number, stateRoot, gasUsed⟩)
  | commitAgain {c : CalledAgain} {request id : Nat} {number : BlockNumber}
      (result : CommitResult) : .commit request id number ∈ c.callbacks →
      Step c (.commitAgain request id number result) (c.again.commitAgain request id number result)
  | ledgerConfigAgain {c : CalledAgain} {request id : Nat} {number : BlockNumber} (ok : Bool) :
      .ledgerConfig request id number ∈ c.callbacks →
      Step c (.ledgerConfigAgain request id number ok)
        (c.again.ledgerConfigAgain request id number ok)
  | notifyAgain {c : CalledAgain} {request id : Nat} {number : BlockNumber}
      (error : Option Error) : .notify request id number ∈ c.callbacks →
      Step c (.notifyAgain request id number error) (c.again.popFront request number error)

/-- A run from the fresh scheduler, with the states in which its steps are made. -/
inductive Run : List (CalledAgain × Event) → CalledAgain → Prop
  | start : Run [] {}
  | step {trace : List (CalledAgain × Event)} {c c' : CalledAgain} {e : Event} :
      Run trace c → Step c e c' → Run (trace ++ [(c, e)]) c'

/-- All states of a run. -/
def states (trace : List (CalledAgain × Event)) (c : CalledAgain) : List CalledAgain :=
  trace.map Prod.fst ++ [c]

variable {c c' : CalledAgain} {e : Event} {trace : List (CalledAgain × Event)}

theorem states_append (trace : List (CalledAgain × Event)) (c c' : CalledAgain) (e : Event) :
    states (trace ++ [(c, e)]) c' = states trace c ++ [c'] := by
  simp [states]

theorem mem_states (trace : List (CalledAgain × Event)) (c : CalledAgain) :
    c ∈ states trace c :=
  List.mem_append_right _ (List.mem_singleton_self c)

/-! ### As long as nothing is called again -/

@[simp] theorem release_recalled (c : CalledAgain) (request : Nat) (number : BlockNumber)
    (error : Option Error) : (c.release request number error).recalled = c.recalled := by
  unfold release
  split_ifs <;> rfl

@[simp] theorem popFront_recalled (c : CalledAgain) (request : Nat) (number : BlockNumber)
    (error : Option Error) : (c.popFront request number error).recalled = c.recalled := by
  unfold popFront
  split
  · rfl
  · rw [release_recalled]

/-- A second call is remembered. -/
theorem Step.once_of_not_recalled (hstep : Step c e c') (hnot : c'.recalled = false) :
    c.recalled = false ∧ ∃ e' s, e = .once e' ∧ Scheduler.Step c.scheduler e' s ∧
      c' = c.once e' s := by
  cases hstep with
  | @once e s hs => exact ⟨hnot, e, s, rfl, hs, rfl⟩
  | executeAgain stateRoot gasUsed hmem =>
      exfalso
      unfold CalledAgain.executeAgain at hnot
      split_ifs at hnot <;> simp [again] at hnot
  | commitAgain result hmem =>
      exfalso
      cases result <;> simp [CalledAgain.commitAgain, again] at hnot
  | ledgerConfigAgain ok hmem =>
      exfalso
      unfold CalledAgain.ledgerConfigAgain at hnot
      split_ifs at hnot <;> simp [again] at hnot
  | notifyAgain error hmem =>
      exfalso
      simp [again] at hnot

/-- As long as nothing was called again: the scheduler has made a run of its own, and
the commit under way is that of the entry its request has started. -/
structure Inv (c : CalledAgain) : Prop where
  reachable : c.recalled = false → Reachable c.scheduler
  started : c.recalled = false → ∀ p, entry c.scheduler.commit = some p →
    (c.request, p.1) ∈ c.started

theorem Inv.init : Inv {} where
  reachable := fun _ => .refl
  started := fun _ p hp => by cases hp

/-- The entry under way is the one started, or the step starts it. -/
theorem Inv.once (h : Inv c) (hnot : c.recalled = false) {e : Scheduler.Event} {s : Scheduler}
    (hs : Scheduler.Step c.scheduler e s) : Inv (c.once e s) where
  reachable := fun _ => (h.reachable hnot).tail ⟨e, hs⟩
  started := by
    intro _ p hp
    have hp' : entry s.commit = some p := hp
    show (c.holder e, p.1) ∈ c.started ++ c.starts s e
    rcases hs.entry_cases hp' with hold | rfl
    · -- the mutex was taken, so the request is the same
      have hholder : c.holder e = c.request := by
        unfold holder
        split
        next number =>
          rw [if_neg]
          intro hfree
          rw [hfree] at hold
          cases hold
        next => rfl
      rw [hholder]
      exact List.mem_append_left _ (h.started hnot p hold)
    · apply List.mem_append_right
      simp only [starts, hp', holder]
      exact List.mem_map.mpr ⟨p, by simp, rfl⟩

theorem Step.inv (hstep : Step c e c') (h : Inv c) : Inv c' := by
  rcases hr : c'.recalled with _ | _
  · obtain ⟨hnot, e', s, -, hs, rfl⟩ := hstep.once_of_not_recalled hr
    exact h.once hnot hs
  · have hnever : c'.recalled ≠ false := by simp [hr]
    exact ⟨fun hnot => absurd hnot hnever, fun hnot => absurd hnot hnever⟩

theorem Run.inv (h : Run trace c) : Inv c := by
  induction h with
  | start => exact .init
  | step _ hstep ih => exact hstep.inv ih

/-- A run without second calls. -/
theorem Run.not_recalled (h : Run trace c) (honce : ∀ p ∈ trace, p.2.isOnce = true) :
    c.recalled = false := by
  induction h with
  | start => rfl
  | @step trace c c' e hrun hstep ih =>
      have hc := ih fun p hp => honce p (List.mem_append_left _ hp)
      cases hstep with
      | once hs => exact hc
      | executeAgain | commitAgain | ledgerConfigAgain | notifyAgain =>
          cases honce _ (List.mem_append_right _ (List.mem_singleton_self _))

/-! ### The block queue -/

/-- The request whose block a step pops. -/
def popper (c : CalledAgain) : Event → Option Nat
  | .once e => if c.scheduler.PopsFront e then some c.request else none
  | .ledgerConfigAgain request _ _ ok =>
      if ok && !c.scheduler.txNotifier then some request else none
  | .notifyAgain request _ _ _ => some request
  | _ => none

/-- What `m_blocks` is in the course of a run. -/
structure QueueSound (trace : List (CalledAgain × Event)) (c : CalledAgain) : Prop where
  consecutive : ∀ u ∈ states trace c, Consecutive u.scheduler.blocks
  /-- The search of `executeBlock` ends at the entry of the number. -/
  found : ∀ u ∈ states trace c, ∀ front back number, u.scheduler.execute = .free →
    u.scheduler.blocks.head? = some front → u.scheduler.blocks.getLast? = some back →
    front.number ≤ number → number ≤ back.number →
    ∃ b ∈ u.scheduler.blocks, b.number = number ∧
      u.scheduler.executeBlock number = u.scheduler.answer (.execute number none b.result [])
  /-- What a request pops is the entry it started to commit. -/
  popped : ∀ p ∈ trace, ∀ request, popper p.1 p.2 = some request →
    ∃ b bs, p.1.scheduler.blocks = b :: bs ∧ (request, b.id) ∈ p.1.started ∧
      ∀ c', Step p.1 p.2 c' → c'.scheduler.blocks = bs

/-- A first call pops the entry that its request started to commit. -/
theorem Inv.popped (h : Inv c) (hnot : c.recalled = false) {e : Scheduler.Event} {s : Scheduler}
    (hs : Scheduler.Step c.scheduler e s) (hpops : c.scheduler.PopsFront e = true) :
    ∃ b bs, c.scheduler.blocks = b :: bs ∧ (c.request, b.id) ∈ c.started ∧
      ∀ c', Step c (.once e) c' → c'.scheduler.blocks = bs := by
  obtain ⟨p, hp⟩ := (hs.popsFront hpops).1
  obtain ⟨b, bs, hbs, hid, -⟩ := (h.reachable hnot).queueInv.committing p.1 p.2 hp
  refine ⟨b, bs, hbs, hid ▸ h.started hnot p hp, fun c' hstep => ?_⟩
  cases hstep with
  | once hs' => exact (hs'.popsFront hpops).2 b bs hbs

/-- **The block queue.**  In every run in which no callback is called again: the
numbers of `m_blocks` are consecutive in every state, a request for a number from
front to back finds an entry with this number, and the entry popped at the end of a
commit is the one whose commit was started, however the steps of other requests
fall in between. -/
theorem blocks_consecutive (hrun : Run trace c) (honce : ∀ p ∈ trace, p.2.isOnce = true) :
    QueueSound trace c := by
  have hstate : ∀ {trace c}, Run trace c → (∀ p ∈ trace, p.2.isOnce = true) →
      QueueInv c.scheduler :=
    fun hrun honce => (hrun.inv.reachable (hrun.not_recalled honce)).queueInv
  induction hrun with
  | start =>
      have hinit := hstate .start honce
      refine ⟨fun u hu => ?_, fun u hu => ?_, fun p hp => by cases hp⟩
      · rw [List.mem_singleton.mp hu]
        exact hinit.consecutive
      · rw [List.mem_singleton.mp hu]
        exact fun front back number => hinit.found
  | @step trace c c' e hrun hstep ih =>
      have hold : ∀ p ∈ trace, p.2.isOnce = true := fun p hp => honce p (List.mem_append_left _ hp)
      have hqueue := hstate (hrun.step hstep) honce
      have hsound := ih hold
      refine ⟨?_, ?_, ?_⟩
      · rw [states_append, List.forall_mem_append, List.forall_mem_singleton]
        exact ⟨hsound.consecutive, hqueue.consecutive⟩
      · rw [states_append, List.forall_mem_append, List.forall_mem_singleton]
        exact ⟨hsound.found, fun front back number => hqueue.found⟩
      · rw [List.forall_mem_append, List.forall_mem_singleton]
        refine ⟨hsound.popped, fun request hpopper => ?_⟩
        cases hstep with
        | @once e s hs =>
            unfold popper at hpopper
            dsimp only at hpopper
            split_ifs at hpopper with hpops
            obtain rfl := Option.some.inj hpopper
            exact hrun.inv.popped (hrun.not_recalled hold) hs hpops
        | executeAgain | commitAgain | ledgerConfigAgain | notifyAgain =>
            cases honce _ (List.mem_append_right _ (List.mem_singleton_self _))

/-- The steps after which a number cannot be committed twice: clean ones, in which
no callback is called again. -/
def Clean (c : CalledAgain) : Event → Prop
  | .once e => c.scheduler.Clean e
  | _ => False

instance (c : CalledAgain) (e : Event) : Decidable (c.Clean e) := by
  unfold Clean
  split <;> infer_instance

/-- Blocks 1 and 2 are executed and block 1 is committed and popped. -/
def oneCommitted : CalledAgain :=
  let header (number : BlockNumber) (stateRoot : H256) : BlockHeader := ⟨number, stateRoot, 0⟩
  let s := (({} : Scheduler).executeBlock 1).setResult 0 (header 1 7)
  let s := s.executeSucceeded (header 1 7)
  let s := ((s.executeBlock 2).setResult 1 (header 2 8)).executeSucceeded (header 2 8)
  let s := ((s.commitBlock 1).commitTest 1).commitDone 0 1 .committed
  { scheduler := (s.ledgerConfigDone 0 1 true).commitAnswered 1 none
    request := 1
    started := [(1, 0)]
    callbacks := [.execute 0 1, .execute 1 2, .commit 1 0 1, .ledgerConfig 1 0 1] }

theorem oneCommitted_run : ∃ trace, Run trace oneCommitted ∧
    (∀ p ∈ trace, p.2.isOnce = true) ∧ ∀ p ∈ trace, p.1.Clean p.2 := by
  have hone := ((Run.start.step (.once (.executeBlock 1))).step (.once (.setResult 7 0 rfl))).step
    (.once (.executeSucceeded rfl))
  have htwo := ((hone.step (.once (.executeBlock 2))).step (.once (.setResult 8 0 rfl))).step
    (.once (.executeSucceeded rfl))
  have hcommitted := ((htwo.step (.once (.commitBlock 1))).step (.once (.commitTest rfl))).step
    (.once (.commitDone .committed rfl))
  have hpopped := (hcommitted.step (.once (.ledgerConfigDone true rfl))).step
    (.once (.commitAnswered rfl))
  exact ⟨_, hpopped, by decide, by decide⟩

/-- The commit of block 1 has popped its entry; that of block 2 is the next. -/
theorem blocks_consecutive_two :
    ∃ trace, Run trace oneCommitted ∧ oneCommitted.scheduler.blocks.map QueuedBlock.number = [2] ∧
      QueueSound trace oneCommitted := by
  obtain ⟨trace, hrun, honce, -⟩ := oneCommitted_run
  exact ⟨trace, hrun, rfl, blocks_consecutive hrun honce⟩

/-- `asyncGetLedgerConfig` may call back twice; the second call after the commit of
block 1 pops block 2, whose commit was not started. -/
theorem second_call_pops_uncommitted :
    (∃ (config config' : LedgerConfig Nat) (s : LedgerQueries Nat),
      LedgerQueries.Steps config s ∧ s.callbacks = [.ok config', .ok config']) ∧
    ¬ ∀ trace c, Run trace c → QueueSound trace c := by
  refine ⟨LedgerQueries.called_twice, fun hclaim => ?_⟩
  obtain ⟨trace, hrun, -⟩ := oneCommitted_run
  have hcalled : Callback.ledgerConfig 1 0 1 ∈ oneCommitted.callbacks := by decide
  have hagain := hrun.step (.ledgerConfigAgain true hcalled)
  obtain ⟨b, bs, hbs, hstarted, -⟩ := (hclaim _ _ hagain).popped _
    (List.mem_append_right _ (List.mem_singleton_self _)) 1 rfl
  -- request 1 has started entry 0, and entry 1 is at the front
  obtain rfl : b = ⟨1, 2, some ⟨2, 8, 0⟩⟩ := (List.cons.inj hbs).1.symm
  exact absurd hstarted (by decide)

/-! ### Committing at most once -/

/-- **A block is committed at most once** in every run of clean steps, and while no
commit is under way `m_blocks` offers no entry whose storage commit succeeded. -/
theorem commitBlock_at_most_once (hrun : Run trace c) (hclean : ∀ p ∈ trace, p.1.Clean p.2) :
    c.scheduler.committed.Nodup ∧
      (c.scheduler.commit = .free → ∀ b ∈ c.scheduler.blocks, b.id ∉ c.scheduler.stored) := by
  have h : CommitInv c.scheduler := by
    induction hrun with
    | start => exact .init
    | @step trace c c' e hrun hstep ih =>
        have hlast := hclean _ (List.mem_append_right _ (List.mem_singleton_self _))
        have hinv := ih fun p hp => hclean p (List.mem_append_left _ hp)
        cases hstep with
        | once hs => exact hs.commitInv hlast hinv
        | executeAgain | commitAgain | ledgerConfigAgain | notifyAgain => exact absurd hlast id
  exact ⟨h.once, h.unoffered⟩

/-- Block 2 is committed after block 1. -/
theorem commitBlock_at_most_once_two :
    ∃ trace c, Run trace c ∧ c.scheduler.committed = [1, 2] ∧ c.scheduler.committed.Nodup := by
  obtain ⟨trace, hrun, -, hclean⟩ := oneCommitted_run
  have hsecond := ((hrun.step (.once (.commitBlock 2))).step (.once (.commitTest rfl))).step
    (.once (.commitDone .committed rfl))
  refine ⟨_, _, hsecond, rfl, (commitBlock_at_most_once hsecond ?_).1⟩
  simp only [List.forall_mem_append, List.forall_mem_singleton]
  exact ⟨⟨⟨hclean, by decide⟩, by decide⟩, by decide⟩

/-- The ledger query after the commit of block 1 fails; the repeated request commits
block 1 a second time. -/
theorem commitBlock_twice :
    ¬ ∀ trace c, Run trace c → c.scheduler.committed.Nodup ∧
      (c.scheduler.commit = .free → ∀ b ∈ c.scheduler.blocks, b.id ∉ c.scheduler.stored) := by
  intro hclaim
  have hexecuted := ((Run.start.step (.once (.executeBlock 1))).step
    (.once (.setResult 7 0 rfl))).step (.once (.executeSucceeded rfl))
  have hfailed := (((hexecuted.step (.once (.commitBlock 1))).step (.once (.commitTest rfl))).step
    (.once (.commitDone .committed rfl))).step (.once (.ledgerConfigDone false rfl))
  have hrepeated := ((hfailed.step (.once (.commitBlock 1))).step (.once (.commitTest rfl))).step
    (.once (.commitDone .committed rfl))
  exact absurd (hclaim _ _ hrepeated).1 (by decide)

end CalledAgain

end BcosScheduler
