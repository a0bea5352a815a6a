/-
BcosScheduler/CommittedNumbers.lean

Executing a committed number again.

A commit ends with `pop_front` of its entry.  From then on the numbers in
`m_blocks` are beyond the committed one and the last executed number is not
below it (`PastCommit`), so `executeBlock` refuses the committed number: by the
back of the queue while there is one, by `m_lastExecutedBlockNumber` when the
queue is empty.

The second test takes `m_lastExecutedBlockNumber = 0` for a scheduler that has
executed nothing.  Zero is also the number of a block, and after block 0 is
committed an empty queue accepts it again (`executeBlock_zero_again`).
-/
import BcosScheduler.BlockQueue

namespace BcosScheduler

namespace Scheduler

variable {s s' t : Scheduler} {k number : BlockNumber}

/-- No executed block is known: nothing queued and `m_lastExecutedBlockNumber`
still, or again, zero. -/
def Unknowing (s : Scheduler) : Prop := s.blocks = [] ∧ s.lastExecutedBlockNumber = 0

/-- A request that does not ask an unknowing scheduler for a number up to `k`. -/
def AsksBeyond (k : BlockNumber) (s : Scheduler) : Event → Prop
  | .executeBlock number => s.execute = .free → s.Unknowing → k < number
  | _ => True

/-- An entry with a result is not beyond the last executed number. -/
def ResultsExecuted (s : Scheduler) : Prop :=
  ∀ b ∈ s.blocks, b.result ≠ none → b.number ≤ s.executedNumber

theorem ResultsExecuted.mono (h : ResultsExecuted s) (hblocks : ∀ b ∈ s'.blocks, b ∈ s.blocks)
    (hexecuted : s'.executedNumber = s.executedNumber) : ResultsExecuted s' := by
  intro b hb hresult
  rw [hexecuted]
  exact h b (hblocks b hb) hresult

theorem executedNumber_enqueue (hfree : s.execute = .free) (number : BlockNumber) :
    (s.enqueue number).executedNumber = s.executedNumber := by
  simp only [executedNumber, enqueue, hfree]

theorem popFront_blocks_subset (s : Scheduler) (number : BlockNumber) (error : Option Error) :
    ∀ b ∈ (s.popFront number error).blocks, b ∈ s.blocks := by
  intro b hb
  unfold popFront at hb
  split at hb
  next hnil => exact hb
  next c cs hcs =>
    rw [hcs]
    exact List.mem_cons_of_mem c hb

theorem popFront_executedNumber (s : Scheduler) (number : BlockNumber) (error : Option Error) :
    (s.popFront number error).executedNumber = s.executedNumber := by
  unfold popFront
  split
  · rfl
  · rfl

/-- What one step does to the entries and to the last executed number: nothing
new, a new entry without result, or the result of the executing block. -/
theorem Step.blocks_cases {e : Event} (hstep : Step s e s') :
    ((∀ b ∈ s'.blocks, b ∈ s.blocks) ∧ s'.executedNumber = s.executedNumber) ∨
    (∃ number, e = .executeBlock number ∧ s' = s.enqueue number ∧ s.execute = .free ∧
      (∀ back, s.blocks.getLast? = some back → number = back.number + 1) ∧
      (s.blocks = [] →
        ¬ (s.lastExecutedBlockNumber ≠ 0 ∧ number ≤ s.lastExecutedBlockNumber))) ∨
    ∃ id header, s.execute = .running id header.number ∧ s' = s.setResult id header := by
  cases hstep with
  | executeBlock number =>
      rcases executeBlock_cases s number with ⟨a, ha⟩ | hfault | ⟨henq, hfree, hback, hlast⟩
      · rw [ha]; exact Or.inl ⟨fun _ => id, rfl⟩
      · rw [hfault]; exact Or.inl ⟨fun _ => id, rfl⟩
      · exact Or.inr (Or.inl ⟨number, rfl, henq, hfree, hback, hlast⟩)
  | executeFailed hrunning =>
      refine Or.inl ⟨fun _ => id, ?_⟩
      simp only [executedNumber, Scheduler.executeFailed, answer, hrunning]
  | @setResult id number stateRoot gasUsed hrunning =>
      exact Or.inr (Or.inr ⟨id, ⟨number, stateRoot, gasUsed⟩, hrunning, rfl⟩)
  | executeSucceeded hfinished =>
      refine Or.inl ⟨fun _ => id, ?_⟩
      simp only [executedNumber, Scheduler.executeSucceeded, answer, hfinished]
  | commitBlock number =>
      unfold Scheduler.commitBlock
      split_ifs
      · exact Or.inl ⟨fun _ => id, rfl⟩
      · exact Or.inl ⟨fun _ => id, rfl⟩
  | @commitBusy number hmem =>
      obtain ⟨answers, fault, heq⟩ := commitBusy_cases s number
      rw [heq]
      exact Or.inl ⟨fun _ => id, rfl⟩
  | commitTest htesting =>
      rename_i number
      rcases commitTest_cases s number with ⟨error, heq⟩ | ⟨front, bs, -, -, heq⟩
      · rw [heq]; exact Or.inl ⟨fun _ => id, rfl⟩
      · rw [heq]; exact Or.inl ⟨fun _ => id, rfl⟩
  | commitRefused hrefusing => exact Or.inl ⟨fun _ => id, rfl⟩
  | commitDone result hcommitting =>
      cases result with
      | committed => exact Or.inl ⟨fun _ => id, rfl⟩
      | failed storage => exact Or.inl ⟨fun _ => id, rfl⟩
      | rolledBack => exact Or.inl ⟨fun _ => id, rfl⟩
  | ledgerConfigDone ok hquerying =>
      unfold Scheduler.ledgerConfigDone
      split_ifs
      · exact Or.inl ⟨fun _ => id, rfl⟩
      · exact Or.inl ⟨popFront_blocks_subset s _ _, popFront_executedNumber s _ _⟩
      · exact Or.inl ⟨fun _ => id, rfl⟩
  | ledgerConfigLost hquerying => exact Or.inl ⟨fun _ => id, rfl⟩
  | notified error hnotifying =>
      exact Or.inl ⟨popFront_blocks_subset s _ _, popFront_executedNumber s _ _⟩
  | commitAnswered hpopped => exact Or.inl ⟨fun _ => id, rfl⟩
  | registerTransactionNotifier => exact Or.inl ⟨fun _ => id, rfl⟩

theorem Step.resultsExecuted {e : Event} (hstep : Step s e s') (hqueue : QueueInv s)
    (h : ResultsExecuted s) : ResultsExecuted s' := by
  rcases hstep.blocks_cases with ⟨hblocks, hexecuted⟩ | ⟨number, -, rfl, hfree, -, -⟩ |
    ⟨id, header, hrunning, rfl⟩
  · exact h.mono hblocks hexecuted
  · intro b hb hresult
    rw [executedNumber_enqueue hfree]
    rcases List.mem_append.mp hb with hb | hb
    · exact h b hb hresult
    · rw [List.mem_singleton.mp hb] at hresult
      exact absurd rfl hresult
  · intro b hb _
    exact (hqueue.setResult hrunning).finished id header rfl b hb

theorem Reachable.resultsExecuted (h : Reachable s) : ResultsExecuted s := by
  induction h with
  | refl => simp [ResultsExecuted]
  | tail hrun hstep ih =>
      obtain ⟨e, he⟩ := hstep
      exact he.resultsExecuted (Reachable.queueInv hrun) ih

/-! ### After the pop -/

/-- After the pop of number `k`. -/
structure PastCommit (k : BlockNumber) (s : Scheduler) : Prop where
  queue : QueueInv s
  beyond : ∀ b ∈ s.blocks, k < b.number
  executed : k ≤ s.executedNumber

/-- The popped entry was the front and had a result. -/
theorem PastCommit.popFront (hs : Reachable s) {id : Nat}
    (hentry : CommitStage.entry s.commit = some (id, k)) (error : Option Error) :
    PastCommit k (s.popFront k error) := by
  obtain ⟨b, bs, hbs, -, hnumber, hresult⟩ := hs.queueInv.committing id k hentry
  have hfront : ∀ c ∈ bs, k < c.number := by
    have hcons := hs.queueInv.consecutive
    rw [hbs] at hcons
    rw [← hnumber]
    exact hcons.front_lt
  refine ⟨hs.queueInv.popFront hentry error, ?_, ?_⟩
  · simp only [Scheduler.popFront, hbs]
    exact hfront
  · rw [popFront_executedNumber, ← hnumber]
    exact hs.resultsExecuted b (by simp [hbs]) hresult

/-- A block is accepted only beyond `k`. -/
theorem PastCommit.lt_of_accepted (h : PastCommit k s) (hasks : s.AsksBeyond k (.executeBlock number))
    (hfree : s.execute = .free)
    (hback : ∀ back, s.blocks.getLast? = some back → number = back.number + 1)
    (hlast : s.blocks = [] →
      ¬ (s.lastExecutedBlockNumber ≠ 0 ∧ number ≤ s.lastExecutedBlockNumber)) :
    k < number := by
  rcases hb : s.blocks.getLast? with _ | back
  · have hnil : s.blocks = [] := List.getLast?_eq_none_iff.mp hb
    by_cases hzero : s.lastExecutedBlockNumber = 0
    · exact hasks hfree ⟨hnil, hzero⟩
    · have hexecuted := h.executed
      simp only [executedNumber, hfree] at hexecuted
      exact lt_of_le_of_lt hexecuted (not_le.mp fun hle => hlast hnil ⟨hzero, hle⟩)
  · rw [hback back hb]
    exact (h.beyond back (List.mem_of_getLast? hb)).trans (lt_add_one back.number)

end Scheduler

end BcosScheduler
