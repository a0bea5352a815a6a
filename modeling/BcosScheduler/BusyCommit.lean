/-
BcosScheduler/BusyCommit.lean

The assertion of `commitBlock` that the queue is not empty while the commit mutex is
taken.

The holder of the mutex keeps the queue non-empty while it commits, since its block is
the front.  It has the mutex before, too, when it tests a queue that may be empty and
until it has refused, and for a moment after it popped the last block; and a callback
that is called again pops a block that is not its own.  So the assertion fails exactly
if a call comes in one of these moments, or if the last block is popped while a call is
between its `try_to_lock` and its look at the queue (`MeetsEmpty`,
`busy_branch_safe_iff`).
-/
import BcosScheduler.CalledAgain

namespace BcosScheduler

/-- The holder of the commit mutex has not found a block to commit, or is through. -/
def CommitStage.outside : CommitStage → Bool
  | .testing _ | .refusing _ _ | .popped _ _ => true
  | _ => false

namespace Scheduler

variable {s s' : Scheduler} {e : Event}

/-! ### The moments of an empty queue -/

/-- A call that found the mutex taken finds a block in the queue, whenever it looks. -/
def BusySafe (s : Scheduler) : Prop :=
  ∀ number ∈ s.busy, s.blocks ≠ [] ∧ (s.commitBusy number).fault = s.fault

theorem busySafe_iff : BusySafe s ↔ (s.busy ≠ [] → s.blocks ≠ []) := by
  constructor
  · intro h hbusy
    obtain ⟨number, hnumber⟩ := List.exists_mem_of_ne_nil s.busy hbusy
    exact (h number hnumber).1
  · intro h number hnumber
    have hblocks := h (List.ne_nil_of_mem hnumber)
    refine ⟨hblocks, ?_⟩
    obtain ⟨front, rest, hcons⟩ := List.exists_cons_of_ne_nil hblocks
    simp only [commitBusy, hcons]
    rfl

/-- A step that is no call and pops nothing keeps the pending calls safe, if it keeps
the queue from getting empty. -/
theorem BusySafe.mono (h : BusySafe s) (hbusy : ∀ number ∈ s'.busy, number ∈ s.busy)
    (hblocks : s.blocks ≠ [] → s'.blocks ≠ []) : BusySafe s' := by
  rw [busySafe_iff] at h ⊢
  intro hne
  obtain ⟨number, hnumber⟩ := List.exists_mem_of_ne_nil _ hne
  exact hblocks (h (List.ne_nil_of_mem (hbusy number hnumber)))

/-- Popping the front of a queue that is not empty while calls are pending. -/
theorem busySafe_pop_iff (h : BusySafe s) (hbusy : s'.busy = s.busy)
    (hblocks : s'.blocks = s.blocks.tail) :
    BusySafe s' ↔ ¬ (s.busy ≠ [] ∧ s.blocks.length = 1) := by
  rw [busySafe_iff] at h
  rw [busySafe_iff, hbusy, hblocks, not_and]
  refine forall_congr' fun hne => not_congr ?_
  obtain ⟨front, rest, hcons⟩ := List.exists_cons_of_ne_nil (h hne)
  rw [hcons, List.tail_cons, List.length_cons, Nat.add_eq_right, List.length_eq_zero_iff]

/-- While the mutex is taken the queue can be empty only outside of the commit. -/
theorem QueueInv.outside_of_nil (h : QueueInv s) (hne : s.commit ≠ .free) (hnil : s.blocks = []) :
    s.commit.outside = true := by
  have hcommitting : ∀ id number, CommitStage.entry s.commit ≠ some (id, number) := by
    intro id number hentry
    obtain ⟨b, bs, hblocks, -⟩ := h.committing id number hentry
    rw [hnil] at hblocks
    cases hblocks
  rcases hcommit : s.commit with _ | number | ⟨number, error⟩ | ⟨id, number⟩ | ⟨id, number⟩ |
    ⟨id, number⟩ | ⟨number, error⟩
  · exact absurd hcommit hne
  · rfl
  · rfl
  · exact absurd (by rw [hcommit]; rfl) (hcommitting id number)
  · exact absurd (by rw [hcommit]; rfl) (hcommitting id number)
  · exact absurd (by rw [hcommit]; rfl) (hcommitting id number)
  · rfl

/-! ### One step -/

/-- The step is a call of `commitBlock`. -/
def Event.isCommitBlock : Event → Bool
  | .commitBlock _ => true
  | _ => false

/-- A new call, that finds the mutex taken or takes it. -/
theorem busySafe_commitBlock_iff (h : BusySafe s) (number : BlockNumber) :
    BusySafe (s.commitBlock number) ↔ ¬ (s.commit ≠ .free ∧ s.blocks = []) := by
  unfold commitBlock
  split_ifs with hfree
  · exact iff_of_true (h.mono (fun _ => id) id) fun hne => hne.1 hfree
  · rw [busySafe_iff, not_and]
    exact ⟨fun hsafe _ => hsafe (by simp), fun hnot _ => hnot hfree⟩

theorem popFront_pops (s : Scheduler) (number : BlockNumber) (error : Option Error) :
    (s.popFront number error).busy = s.busy ∧
      (s.popFront number error).blocks = s.blocks.tail := by
  rcases hblocks : s.blocks with _ | ⟨front, rest⟩
  · simp [popFront, hblocks]
  · simp [popFront, hblocks]

/-- What a step that is no call does: it pops the front or keeps the queue as long as
it is. -/
theorem Step.pops_or_keeps (hstep : Step s e s') (hcall : e.isCommitBlock = false) :
    (PopsFront s e = true ∧ s'.busy = s.busy ∧ s'.blocks = s.blocks.tail) ∨
    (PopsFront s e = false ∧ (∀ number ∈ s'.busy, number ∈ s.busy) ∧
      (s.blocks ≠ [] → s'.blocks ≠ [])) := by
  cases hstep with
  | executeBlock number =>
      refine Or.inr ⟨rfl, ?_⟩
      rcases executeBlock_cases s number with ⟨a, ha⟩ | hfault | ⟨henq, -⟩
      · rw [ha]
        exact ⟨fun _ => id, id⟩
      · rw [hfault]
        exact ⟨fun _ => id, id⟩
      · rw [henq]
        exact ⟨fun _ => id, fun _ => by simp [Scheduler.enqueue]⟩
  | setResult stateRoot gasUsed hrunning =>
      refine Or.inr ⟨rfl, fun _ => id, fun hne => ?_⟩
      simpa [Scheduler.setResult] using hne
  | commitBlock number => cases hcall
  | @commitBusy number hmem =>
      obtain ⟨answers, fault, heq⟩ := commitBusy_cases s number
      rw [heq]
      exact Or.inr ⟨rfl, fun _ => List.mem_of_mem_erase, id⟩
  | @commitTest number htesting =>
      refine Or.inr ⟨rfl, ?_⟩
      rcases commitTest_cases s number with ⟨error, heq⟩ | ⟨front, bs, -, -, heq⟩
      · rw [heq]
        exact ⟨fun _ => id, id⟩
      · rw [heq]
        exact ⟨fun _ => id, id⟩
  | commitDone result hcommitting => cases result <;> exact Or.inr ⟨rfl, fun _ => id, id⟩
  | @ledgerConfigDone i number ok hquerying =>
      cases ok with
      | false => exact Or.inr ⟨rfl, fun _ => id, id⟩
      | true =>
          by_cases hnotifier : s.txNotifier = true
          · have heq : s.ledgerConfigDone i number true
                = { s with commit := .notifying i number } := if_pos hnotifier
            rw [heq]
            exact Or.inr ⟨by simp [PopsFront, hnotifier], fun _ => id, id⟩
          · have heq : s.ledgerConfigDone i number true = s.popFront number none :=
              if_neg hnotifier
            rw [heq]
            exact Or.inl ⟨by simp [PopsFront, hnotifier], popFront_pops s number none⟩
  | @notified i number error hnotifying => exact Or.inl ⟨rfl, popFront_pops s number error⟩
  | executeFailed | executeSucceeded | commitRefused | ledgerConfigLost | commitAnswered
  | registerTransactionNotifier => exact Or.inr ⟨rfl, fun _ => id, id⟩

end Scheduler

namespace CalledAgain

open Scheduler (BusySafe)

variable {c c' : CalledAgain} {e : Event} {trace : List (CalledAgain × Event)}

/-- The step is a call of `commitBlock`. -/
def Event.isCommitBlock : Event → Bool
  | .once e => e.isCommitBlock
  | _ => false

/-- The step after which a call meets an empty queue: a call fails to get the mutex
while its holder stands before or behind an empty queue, or a callback called again
has emptied it; or the last block is popped while a call that failed to get the mutex
has not yet looked. -/
def MeetsEmpty (c : CalledAgain) (e : Event) : Prop :=
  if e.isCommitBlock then
    (c.scheduler.commit.outside = true ∨ c.recalled = true) ∧ c.scheduler.commit ≠ .free ∧
      c.scheduler.blocks = []
  else (c.popper e).isSome = true ∧ c.scheduler.busy ≠ [] ∧ c.scheduler.blocks.length = 1

instance (c : CalledAgain) (e : Event) : Decidable (MeetsEmpty c e) := by
  unfold MeetsEmpty
  infer_instance

theorem meetsEmpty_of_call (h : e.isCommitBlock = true) :
    MeetsEmpty c e ↔ (c.scheduler.commit.outside = true ∨ c.recalled = true) ∧
      c.scheduler.commit ≠ .free ∧ c.scheduler.blocks = [] :=
  iff_of_eq (if_pos h)

theorem meetsEmpty_of_not_call (h : e.isCommitBlock = false) :
    MeetsEmpty c e ↔ (c.popper e).isSome = true ∧ c.scheduler.busy ≠ [] ∧
      c.scheduler.blocks.length = 1 :=
  iff_of_eq (if_neg (by simp [h]))

/-! ### One step, with second calls -/

theorem release_queue (c : CalledAgain) (request : Nat) (number : BlockNumber)
    (error : Option Error) :
    (c.release request number error).scheduler.busy = c.scheduler.busy ∧
      (c.release request number error).scheduler.blocks = c.scheduler.blocks := by
  unfold release
  split_ifs
  · exact ⟨rfl, rfl⟩
  · exact ⟨rfl, rfl⟩

theorem popFront_queue (c : CalledAgain) (request : Nat) (number : BlockNumber)
    (error : Option Error) :
    (c.popFront request number error).scheduler.busy = c.scheduler.busy ∧
      (c.popFront request number error).scheduler.blocks = c.scheduler.blocks.tail := by
  unfold popFront
  split
  next hnil => exact ⟨rfl, by simp [hnil]⟩
  next front rest hblocks =>
    rw [hblocks, List.tail_cons]
    exact release_queue _ request number error

/-- The callback of `asyncGetLedgerConfig`, called again, pops the front or leaves the queue. -/
theorem ledgerConfigAgain_pops_or_keeps (c : CalledAgain) (request id : Nat)
    (number : BlockNumber) (ok : Bool) :
    let c' := c.again.ledgerConfigAgain request id number ok
    c'.scheduler.busy = c.scheduler.busy ∧
      ((ok && !c.scheduler.txNotifier) = true ∧
          c'.scheduler.blocks = c.scheduler.blocks.tail ∨
        (ok && !c.scheduler.txNotifier) = false ∧ c'.scheduler.blocks = c.scheduler.blocks) := by
  cases ok with
  | false =>
      obtain ⟨hbusy, hblocks⟩ := release_queue c.again request number
        (some (SchedulerError.UnknownError.error "Get system config error"))
      exact ⟨hbusy, Or.inr ⟨rfl, hblocks⟩⟩
  | true =>
      obtain ⟨hbusy, hblocks⟩ := popFront_queue c.again request number none
      by_cases hnotify : c.scheduler.txNotifier = true ∧ c.scheduler.blocks ≠ []
      · have heq : c.again.ledgerConfigAgain request id number true
            = { c.again with callbacks := c.again.callbacks ++ [.notify request id number] } :=
          if_pos hnotify
        rw [heq]
        exact ⟨rfl, Or.inr ⟨by simp [hnotify.1], rfl⟩⟩
      · have heq : c.again.ledgerConfigAgain request id number true
            = c.again.popFront request number none := if_neg hnotify
        rw [heq]
        rcases hnotifier : c.scheduler.txNotifier with _ | _
        · exact ⟨hbusy, Or.inl ⟨rfl, hblocks⟩⟩
        · -- an empty queue stays empty
          have hnil : c.scheduler.blocks = [] := not_not.mp fun hne => hnotify ⟨hnotifier, hne⟩
          refine ⟨hbusy, Or.inr ⟨rfl, hblocks.trans ?_⟩⟩
          show c.scheduler.blocks.tail = c.scheduler.blocks
          rw [hnil, List.tail_nil]

/-- A step that is no call pops the front or keeps the queue as long as it is. -/
theorem Step.pops_or_keeps (hstep : Step c e c') (hcall : e.isCommitBlock = false) :
    ((c.popper e).isSome = true ∧ c'.scheduler.busy = c.scheduler.busy ∧
      c'.scheduler.blocks = c.scheduler.blocks.tail) ∨
    (c.popper e = none ∧ (∀ number ∈ c'.scheduler.busy, number ∈ c.scheduler.busy) ∧
      (c.scheduler.blocks ≠ [] → c'.scheduler.blocks ≠ [])) := by
  cases hstep with
  | @once e s hs =>
      rcases hs.pops_or_keeps hcall with ⟨hpops, hqueue⟩ | ⟨hpops, hqueue⟩
      · exact Or.inl ⟨by simp [popper, hpops], hqueue⟩
      · exact Or.inr ⟨by simp [popper, hpops], hqueue⟩
  | executeAgain stateRoot gasUsed hmem =>
      right
      unfold CalledAgain.executeAgain
      split_ifs
      · refine ⟨rfl, fun _ => id, fun hne => ?_⟩
        simpa [again] using hne
      · exact ⟨rfl, fun _ => id, id⟩
  | @commitAgain request i number result hmem =>
      right
      cases result with
      | committed | rolledBack => exact ⟨rfl, fun _ => id, id⟩
      | failed storage =>
          have hqueue : (c.again.commitAgain request i number (.failed storage)).scheduler.busy
                = c.scheduler.busy ∧
              (c.again.commitAgain request i number (.failed storage)).scheduler.blocks
                = c.scheduler.blocks := release_queue _ request number _
          refine ⟨rfl, fun k hk => hqueue.1 ▸ hk, fun hne hnil => ?_⟩
          exact hne (hqueue.2.symm.trans hnil)
  | @ledgerConfigAgain request i number ok hmem =>
      obtain ⟨hbusy, ⟨hpops, hblocks⟩ | ⟨hkeeps, hblocks⟩⟩ :=
        ledgerConfigAgain_pops_or_keeps c request i number ok
      · exact Or.inl ⟨by simp [popper, hpops], hbusy, hblocks⟩
      · refine Or.inr ⟨by simp [popper, hkeeps], fun k hk => hbusy ▸ hk, fun hne hnil => ?_⟩
        exact hne (hblocks.symm.trans hnil)
  | @notifyAgain request i number error hmem =>
      exact Or.inl ⟨rfl, popFront_queue c.again request number error⟩

/-- The pending calls stay safe in a step exactly if it is not one of those. -/
theorem Step.busySafe_iff (hstep : Step c e c') (hinv : Inv c) (h : BusySafe c.scheduler) :
    BusySafe c'.scheduler ↔ ¬ MeetsEmpty c e := by
  rcases hcall : e.isCommitBlock with _ | _
  · rw [meetsEmpty_of_not_call hcall]
    rcases hstep.pops_or_keeps hcall with ⟨hpopper, hbusy, hblocks⟩ | ⟨hpopper, hbusy, hblocks⟩
    · rw [Scheduler.busySafe_pop_iff h hbusy hblocks]
      exact not_congr (and_iff_right hpopper).symm
    · refine iff_of_true (h.mono hbusy hblocks) ?_
      rintro ⟨hsome, -⟩
      rw [hpopper] at hsome
      cases hsome
  · rw [meetsEmpty_of_call hcall]
    cases hstep with
    | once hs =>
        cases hs with
        | commitBlock number =>
            refine (Scheduler.busySafe_commitBlock_iff h number).trans (not_congr ?_)
            refine ⟨fun hempty => ⟨?_, hempty⟩, And.right⟩
            -- without a second call the holder has found no block, or has popped it
            rcases hrecalled : c.recalled with _ | _
            · exact Or.inl ((hinv.reachable hrecalled).queueInv.outside_of_nil hempty.1 hempty.2)
            · exact Or.inr rfl
        | _ => cases hcall
    | executeAgain | commitAgain | ledgerConfigAgain | notifyAgain => cases hcall

/-! ### Whole runs -/

/-- In all states of a run, callbacks called again included, the calls that found the
mutex taken find a block in the queue exactly if no step of the run is one after which
a call meets an empty queue. -/
theorem busy_branch_safe_iff (h : Run trace c) :
    (∀ u ∈ states trace c, BusySafe u.scheduler) ↔ ∀ p ∈ trace, ¬ MeetsEmpty p.1 p.2 := by
  induction h with
  | start =>
      refine iff_of_true (fun u hu => ?_) fun p hp => by cases hp
      rw [List.mem_singleton.mp hu]
      intro number hnumber
      cases hnumber
  | @step trace c c' e hrun hstep ih =>
      rw [states_append, List.forall_mem_append, List.forall_mem_append, ← ih,
        List.forall_mem_singleton, List.forall_mem_singleton]
      apply and_congr_right
      intro hall
      exact hstep.busySafe_iff hrun.inv (hall c (mem_states trace c))

/-- Two calls come while block 1 is committing. -/
theorem busy_branch_safe_iff_two : ∃ trace c, Run trace c ∧ c.scheduler.busy = [1, 2] ∧
    ∀ u ∈ states trace c, BusySafe u.scheduler := by
  have hexecuted := ((Run.start.step (.once (.executeBlock 1))).step
    (.once (.setResult 7 0 rfl))).step (.once (.executeSucceeded rfl))
  have hrun := (((hexecuted.step (.once (.commitBlock 1))).step (.once (.commitTest rfl))).step
    (.once (.commitBlock 1))).step (.once (.commitBlock 2))
  exact ⟨_, _, hrun, rfl, (busy_branch_safe_iff hrun).mpr (by decide)⟩

/-- Two calls on a fresh scheduler: the second one finds the mutex taken and looks at
the empty queue. -/
theorem busy_branch_fails :
    ¬ ∀ trace c, Run trace c → ∀ u ∈ states trace c, BusySafe u.scheduler := by
  intro hclaim
  have hrun := (Run.start.step (.once (.commitBlock 1))).step (.once (.commitBlock 2))
  exact (hclaim _ _ hrun _ (mem_states _ _) 2 (by decide)).1 rfl

end CalledAgain

end BcosScheduler
