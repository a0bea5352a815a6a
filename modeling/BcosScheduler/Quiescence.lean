/-
BcosScheduler/Quiescence.lean

A node that gets no new requests comes to rest.

The executive of the accepted block and the stages of the commit requests make their
steps in any order.  The executive comes to its callback by
`BcosScheduler.ExecuteCompletes`; every other step leaves less of the requests to do
(`Scheduler.remaining`), except the result of the executive, which is given once.  At
rest both mutexes are free and every executed block was answered
(`replica_quiesces`).

One thing can come in between: a `commitBlock` that found the mutex taken looks at an
empty queue, and its assertion ends the process (`Replica.Aborted`).  This needs a call
that has failed to get the mutex and has not looked yet.
-/
import BcosScheduler.ExecuteCompletes
import BcosScheduler.Replicas

namespace BcosScheduler

/-! ### What is left of the requests -/

namespace Scheduler

variable {s s' : Scheduler} {e : Event}

/-- The events that go on with requests already made. -/
def Event.goesOn : Event → Bool
  | .executeSucceeded | .commitBusy _ | .commitTest | .commitRefused | .commitDone _
  | .ledgerConfigDone _ | .ledgerConfigLost | .notified _ | .commitAnswered => true
  | _ => false

/-- How many steps a commit has still to make, at most. -/
def CommitStage.rank : CommitStage → Nat
  | .free => 0
  | .popped _ _ | .refusing _ _ => 1
  | .notifying _ _ => 2
  | .querying _ _ => 3
  | .committing _ _ => 4
  | .testing _ => 5

def ExecuteStage.rank : ExecuteStage → Nat
  | .finished _ _ => 1
  | _ => 0

/-- How many steps the requests have still to make, the execution aside. -/
def remaining (s : Scheduler) : Nat :=
  CommitStage.rank s.commit + s.busy.length + ExecuteStage.rank s.execute

theorem Event.besideExecution_of_goesOn (h : e.goesOn = true) : e.besideExecution = true := by
  cases e <;> simp_all [Event.goesOn, Event.besideExecution]

theorem rank_popFront (s : Scheduler) (number : BlockNumber) (error : Option Error) :
    (s.popFront number error).remaining = 1 + s.busy.length + ExecuteStage.rank s.execute := by
  unfold popFront
  split <;> rfl

theorem Step.remaining_lt (hstep : Step s e s') (hgoes : e.goesOn = true) :
    s'.remaining < s.remaining := by
  cases hstep with
  | executeBlock | executeFailed | setResult | commitBlock | registerTransactionNotifier =>
      cases hgoes
  | executeSucceeded hfinished =>
      simp only [remaining, Scheduler.executeSucceeded, answer, hfinished, ExecuteStage.rank]
      omega
  | @commitBusy number hmem =>
      obtain ⟨answers, fault, heq⟩ := commitBusy_cases s number
      have hlen := List.length_erase_of_mem hmem
      have hpos := List.length_pos_of_mem hmem
      rw [heq]
      simp only [remaining]
      omega
  | @commitTest number htesting =>
      rcases commitTest_cases s number with ⟨error, heq⟩ | ⟨front, bs, -, -, heq⟩
      · rw [heq]
        simp only [remaining, refuse, htesting, CommitStage.rank]
        omega
      · rw [heq]
        simp only [remaining, htesting, CommitStage.rank]
        omega
  | commitRefused hrefusing =>
      simp only [remaining, refuseCommit, answer, hrefusing, CommitStage.rank]
      omega
  | @commitDone id number result hcommitting =>
      cases result <;>
        simp only [remaining, Scheduler.commitDone, refuseCommit, answer, hcommitting,
          CommitStage.rank] <;> omega
  | @ledgerConfigDone i number ok hquerying =>
      unfold Scheduler.ledgerConfigDone
      split_ifs
      · simp only [remaining, hquerying, CommitStage.rank]
        omega
      · rw [rank_popFront, remaining, hquerying]
        simp only [CommitStage.rank]
        omega
      · simp only [remaining, refuseCommit, answer, hquerying, CommitStage.rank]
        omega
  | ledgerConfigLost hquerying =>
      simp only [remaining, Scheduler.ledgerConfigLost, hquerying, CommitStage.rank]
      omega
  | notified error hnotifying =>
      rw [rank_popFront, remaining, hnotifying]
      simp only [CommitStage.rank]
      omega
  | commitAnswered hpopped =>
      simp only [remaining, Scheduler.commitAnswered, answer, hpopped, CommitStage.rank]
      omega

/-- While something is left, a step is possible. -/
theorem exists_step_of_remaining (h : s.remaining ≠ 0) :
    ∃ e s', Event.goesOn e = true ∧ Step s e s' := by
  rcases hcommit : s.commit with _ | number | ⟨number, error⟩ | ⟨id, number⟩ | ⟨id, number⟩ |
    ⟨id, number⟩ | ⟨number, error⟩
  · rcases hbusy : s.busy with _ | ⟨number, rest⟩
    · rcases hexecute : s.execute with _ | ⟨id, number⟩ | ⟨id, header⟩
      · simp [remaining, hcommit, hbusy, hexecute, CommitStage.rank, ExecuteStage.rank] at h
      · simp [remaining, hcommit, hbusy, hexecute, CommitStage.rank, ExecuteStage.rank] at h
      · exact ⟨_, _, rfl, .executeSucceeded hexecute⟩
    · exact ⟨_, _, rfl, @Step.commitBusy s number (by simp [hbusy])⟩
  · exact ⟨_, _, rfl, .commitTest hcommit⟩
  · exact ⟨_, _, rfl, .commitRefused hcommit⟩
  · exact ⟨_, _, rfl, .commitDone .committed hcommit⟩
  · exact ⟨_, _, rfl, .ledgerConfigDone true hcommit⟩
  · exact ⟨_, _, rfl, .notified none hcommit⟩
  · exact ⟨_, _, rfl, .commitAnswered hcommit⟩

/-- What the other steps do to the calls that found the mutex taken, and when they
fault: a call of these looks at an empty queue. -/
theorem Step.busy_fault (hstep : Step s e s') (hgoes : e.goesOn = true) (hqueue : QueueInv s) :
    s'.busy ⊆ s.busy ∧
      (s'.fault = s.fault ∨ s.busy ≠ [] ∧ s'.fault = some .emptyQueue) := by
  have hsame : ∀ {t : Scheduler}, t.busy = s.busy → t.fault = s.fault →
      t.busy ⊆ s.busy ∧ (t.fault = s.fault ∨ s.busy ≠ [] ∧ t.fault = some .emptyQueue) := by
    intro t hbusy hfault
    exact ⟨hbusy ▸ List.Subset.refl _, Or.inl hfault⟩
  -- the committed block is at the front of the queue
  have hpop : ∀ (i : Nat) {number : BlockNumber} (error : Option Error),
      CommitStage.entry s.commit = some (i, number) → (s.popFront number error).busy ⊆ s.busy ∧
        ((s.popFront number error).fault = s.fault ∨
          s.busy ≠ [] ∧ (s.popFront number error).fault = some .emptyQueue) := by
    intro i number error hentry
    obtain ⟨b, bs, hbs, -⟩ := hqueue.committing i number hentry
    rw [popFront_cons hbs]
    exact hsame rfl rfl
  cases hstep with
  | executeBlock | executeFailed | setResult | commitBlock | registerTransactionNotifier =>
      cases hgoes
  | executeSucceeded | commitRefused | ledgerConfigLost | commitAnswered => exact hsame rfl rfl
  | @commitBusy number hmem =>
      unfold Scheduler.commitBusy
      split
      · exact ⟨List.erase_subset, Or.inr ⟨List.ne_nil_of_mem hmem, rfl⟩⟩
      · exact ⟨List.erase_subset, Or.inl rfl⟩
  | @commitTest number htesting =>
      rcases commitTest_cases s number with ⟨error, heq⟩ | ⟨front, bs, -, -, heq⟩
      · rw [heq]; exact hsame rfl rfl
      · rw [heq]; exact hsame rfl rfl
  | commitDone result hcommitting => cases result <;> exact hsame rfl rfl
  | @ledgerConfigDone i number ok hquerying =>
      unfold Scheduler.ledgerConfigDone
      split_ifs
      · exact hsame rfl rfl
      · exact hpop i none (by rw [hquerying]; rfl)
      · exact hsame rfl rfl
  | @notified i number error hnotifying => exact hpop i error (by rw [hnotifying]; rfl)

/-- Answers are not taken back. -/
theorem Step.answers_subset (hstep : Step s e s') : s.answers ⊆ s'.answers := by
  have hanswer : ∀ (t : Scheduler) (a : Answer), t.answers ⊆ (t.answer a).answers :=
    fun t a => List.subset_append_left _ _
  cases hstep with
  | executeBlock number =>
      rcases executeBlock_cases s number with ⟨a, ha⟩ | hfault | ⟨henq, -⟩
      · rw [ha]; exact hanswer s a
      · rw [hfault]; exact List.Subset.refl _
      · rw [henq]; exact List.Subset.refl _
  | executeFailed | executeSucceeded | commitRefused | commitAnswered => exact hanswer _ _
  | setResult | ledgerConfigLost | registerTransactionNotifier => exact List.Subset.refl _
  | commitBlock number =>
      unfold Scheduler.commitBlock
      split_ifs <;> exact List.Subset.refl _
  | commitBusy hmem =>
      unfold Scheduler.commitBusy
      split
      · exact List.Subset.refl _
      · exact hanswer _ _
  | @commitTest number htesting =>
      rcases commitTest_cases s number with ⟨error, heq⟩ | ⟨front, bs, -, -, heq⟩
      · rw [heq]; exact List.Subset.refl _
      · rw [heq]; exact List.Subset.refl _
  | commitDone result hcommitting =>
      cases result with
      | committed | rolledBack => exact List.Subset.refl _
      | failed storage => exact hanswer _ _
  | ledgerConfigDone ok hquerying =>
      unfold Scheduler.ledgerConfigDone popFront
      split_ifs
      · exact List.Subset.refl _
      · split <;> exact List.Subset.refl _
      · exact hanswer _ _
  | notified error hnotifying =>
      unfold Scheduler.popFront
      split <;> exact List.Subset.refl _

end Scheduler

/-! ### Executed blocks are answered -/

variable {d : Deployment} {r r' : Replica} {block : Block} {x x' : Execution}
  {past : List (Block × Option BlockHeader)} {limit : Nat}

namespace Replica

/-- The request for an executed block was answered. -/
def AnsweredTo (r : Replica) (p : Block × Option BlockHeader) : Prop :=
  match p.2 with
  | some header => Answer.execute p.1.number none (some header) [] ∈ r.scheduler.answers
  | none => ∃ error, Answer.execute p.1.number (some error) none [] ∈ r.scheduler.answers

/-- Every executed block was answered, except one whose result was set just now. -/
def Answered (r : Replica) : Prop :=
  ∀ p ∈ r.executed, r.AnsweredTo p ∨
    ∃ id header, p.2 = some header ∧ p.1.number = header.number ∧
      r.scheduler.execute = .finished id header

theorem AnsweredTo.mono {p : Block × Option BlockHeader} (h : r.AnsweredTo p)
    (hsub : r.scheduler.answers ⊆ r'.scheduler.answers) : r'.AnsweredTo p := by
  obtain ⟨block, _ | header⟩ := p
  · obtain ⟨error, hmem⟩ := h
    exact ⟨error, hsub hmem⟩
  · exact hsub h

theorem Answered.beside (h : r.Answered) (hinv : Inv d r) {e : Scheduler.Event} {s : Scheduler}
    (hbeside : e.besideExecution = true) (hstep : Scheduler.Step r.scheduler e s) :
    Answered { r with scheduler := s } := by
  intro p hp
  rcases h p hp with hans | ⟨id, header, hheader, hnumber, hfinished⟩
  · exact Or.inl (hans.mono hstep.answers_subset)
  · rcases (hstep.beside hinv.reachable.queueInv hbeside).stage with
      hsame | ⟨_, header', hfinished', -, hanswer⟩
    · exact Or.inr ⟨id, header, hheader, hnumber, hsame.trans hfinished⟩
    · left
      rw [hfinished] at hfinished'
      cases hfinished'
      obtain ⟨block, header'⟩ := p
      obtain rfl : header' = some header := hheader
      rw [AnsweredTo, hnumber]
      exact hanswer

theorem Step.answered (hstep : Step d r r') (hinv : Inv d r) (h : r.Answered) : r'.Answered := by
  cases hstep with
  | executeBlock block =>
      have hstep := Scheduler.Step.executeBlock (s := r.scheduler) block.number
      rcases executeBlock_cases d r block with ⟨answers, fault, heq, hr⟩ | ⟨henq, hr, hfree, -⟩
      · rw [heq] at hstep
        rw [hr]
        intro p hp
        exact (h p hp).imp (fun hans => hans.mono hstep.answers_subset) id
      · rw [hr]
        intro p hp
        rcases h p hp with hans | ⟨id, header, -, -, hfinished⟩
        · exact Or.inl hans
        · rw [hfree] at hfinished
          cases hfinished
  | execution => exact h
  | @setResult block x id number header hexecutive hanswer hrunning =>
      have hheader := (hinv.executive block x hexecutive).header_number hanswer
      intro p hp
      rcases List.mem_append.mp hp with hp | hp
      · rcases h p hp with hans | ⟨_, _, -, -, hfinished⟩
        · exact Or.inl hans
        · rw [hrunning] at hfinished
          cases hfinished
      · rw [List.mem_singleton.mp hp]
        exact Or.inr ⟨id, header, rfl, hheader.symm, rfl⟩
  | @executeFailed block x id number error hexecutive hanswer hrunning =>
      obtain ⟨block', x', hexecutive', rfl⟩ := hinv.running id number hrunning
      rw [hexecutive] at hexecutive'
      cases hexecutive'
      intro p hp
      rcases List.mem_append.mp hp with hp | hp
      · rcases h p hp with hans | ⟨_, _, -, -, hfinished⟩
        · exact Or.inl (hans.mono (List.subset_append_left _ _))
        · rw [hrunning] at hfinished
          cases hfinished
      · rw [List.mem_singleton.mp hp]
        exact Or.inl ⟨_, List.mem_append_right _ List.mem_cons_self⟩
  | beside hbeside hs => exact h.beside hinv hbeside hs

theorem Steps.answered (h : Steps d r) : r.Answered := by
  induction h with
  | refl => simp [Answered]
  | tail hrun hstep ih => exact hstep.answered (Steps.inv hrun) ih

/-! ### Coming to rest -/

/-- A step of a node that goes on with requests already made. -/
inductive Works (d : Deployment) : Replica → Replica → Prop
  | execution {r : Replica} {block : Block} {x x' : Execution} :
      r.executive = some (block, x) →
      Execution.Moves d.executeEnv block (d.executors r.executed) (d.replies r.executed block)
        x x' →
      Works d r { r with executive := some (block, x') }
  | setResult {r : Replica} {block : Block} {x : Execution} {id : Nat} {number : BlockNumber}
      {header : BlockHeader} : r.executive = some (block, x) →
      .ok (some header) ∈ x.answers → r.scheduler.execute = .running id number →
      Works d r { scheduler := r.scheduler.setResult id header
                  executive := none
                  executed := r.executed ++ [(block, some header)] }
  | executeFailed {r : Replica} {block : Block} {x : Execution} {id : Nat}
      {number : BlockNumber} {e : Error} : r.executive = some (block, x) →
      .error e ∈ x.answers → r.scheduler.execute = .running id number →
      Works d r { scheduler := r.scheduler.executeFailed number
                  executive := none
                  executed := r.executed ++ [(block, none)] }
  | beside {r : Replica} {e : Scheduler.Event} {s : Scheduler} : e.goesOn = true →
      Scheduler.Step r.scheduler e s → Works d r { r with scheduler := s }

theorem Works.toStep (h : Works d r r') : Step d r r' := by
  cases h with
  | execution hexecutive hmove => exact .execution hexecutive hmove.1
  | setResult hexecutive hanswer hrunning => exact .setResult hexecutive hanswer hrunning
  | executeFailed hexecutive hanswer hrunning => exact .executeFailed hexecutive hanswer hrunning
  | beside hgoes hstep => exact .beside (Scheduler.Event.besideExecution_of_goesOn hgoes) hstep

/-- A step of a node that did not come to a fault: a failed assertion ends the process. -/
def Continues (d : Deployment) (r r' : Replica) : Prop :=
  r.scheduler.fault = none ∧ Works d r r'

/-- A call that found the commit mutex taken has found the queue empty. -/
def Aborted (r : Replica) : Prop := r.scheduler.fault = some .emptyQueue

/-- Nothing is executing or committing, and nobody waits. -/
structure Quiet (r : Replica) : Prop where
  executive : r.executive = none
  execute : r.scheduler.execute = .free
  commit : r.scheduler.commit = .free
  busy : r.scheduler.busy = []

/-- At rest, with `executed` as the log, all of it answered. -/
def Rests (executed : List (Block × Option BlockHeader)) (r : Replica) : Prop :=
  r.Quiet ∧ r.executed = executed ∧ ∀ p ∈ executed, r.AnsweredTo p

theorem quiet_of_remaining (h : Inv d r) (hnone : r.executive = none)
    (hzero : r.scheduler.remaining = 0) : r.Quiet := by
  unfold Scheduler.remaining at hzero
  refine ⟨hnone, ?_, ?_, List.eq_nil_of_length_eq_zero (by omega)⟩
  · rcases hexecute : r.scheduler.execute with _ | ⟨id, number⟩ | ⟨id, header⟩
    · rfl
    · obtain ⟨block, x, hexecutive, -⟩ := h.running id number hexecute
      rw [hnone] at hexecutive
      cases hexecutive
    · rw [hexecute, Scheduler.ExecuteStage.rank] at hzero
      omega
  · rcases hcommit : r.scheduler.commit
    · rfl
    all_goals
      rw [hcommit, Scheduler.CommitStage.rank] at hzero
      omega

/-- Without an executive the rest of the requests is all there is to do. -/
theorem inevitable_rests (h : Steps d r) (hnone : r.executive = none) :
    Inevitable (Continues d) (fun k => Rests r.executed k ∨ k.scheduler.fault ≠ none) r := by
  apply Inevitable.of_measure (fun k => k.scheduler.remaining)
    (I := fun k => Steps d k ∧ k.executive = none ∧ k.executed = r.executed)
  · rintro k k' ⟨hk, hknone, hexecuted⟩ ⟨-, hworks⟩
    have hk' : Steps d k' := Relation.ReflTransGen.tail hk hworks.toStep
    right
    cases hworks with
    | execution hexecutive | setResult hexecutive | executeFailed hexecutive =>
        rw [hknone] at hexecutive
        cases hexecutive
    | beside hgoes hstep => exact ⟨⟨hk', hknone, hexecuted⟩, hstep.remaining_lt hgoes⟩
  · rintro k ⟨hk, hknone, hexecuted⟩ hnot
    obtain ⟨hnot, hfault⟩ := not_or.mp hnot
    have hne : k.scheduler.remaining ≠ 0 := by
      intro hzero
      have hquiet := quiet_of_remaining hk.inv hknone hzero
      refine hnot ⟨hquiet, hexecuted, fun p hp => ?_⟩
      rcases hk.answered p (hexecuted ▸ hp) with hans | ⟨_, _, -, -, hfinished⟩
      · exact hans
      · rw [hquiet.execute] at hfinished
        cases hfinished
    obtain ⟨e, s', hgoes, hstep⟩ := Scheduler.exists_step_of_remaining hne
    exact ⟨_, not_not.mp hfault, .beside hgoes hstep⟩
  · exact ⟨h, hnone, rfl⟩

/-- At rest after the executing block was executed with a header, or at a fault. -/
def RestsAfter (past : List (Block × Option BlockHeader)) (block : Block) (k : Replica) : Prop :=
  (∃ header, Rests (past ++ [(block, some header)]) k) ∨ k.scheduler.fault ≠ none

/-- With an executive at `x`: it suffices that it has an answer or can go on, never fails, and
that the node comes to rest from wherever it goes. -/
theorem inevitable_rests_of_moves (hno : ∀ e, .error e ∉ x.answers)
    (hprogress : (∃ header, .ok (some header) ∈ x.answers) ∨
      ∃ x', Execution.Moves d.executeEnv block (d.executors past) (d.replies past block) x x')
    (hmoves : ∀ x', Execution.Moves d.executeEnv block (d.executors past) (d.replies past block)
      x x' → ∀ k, Steps d k → k.executive = some (block, x') → k.executed = past →
      Inevitable (Continues d) (RestsAfter past block) k) :
    ∀ k, Steps d k → k.executive = some (block, x) → k.executed = past →
      Inevitable (Continues d) (RestsAfter past block) k := by
  intro k hk hexecutive hpast
  -- the requests may go on any number of times before the executive does
  induction hn : k.scheduler.remaining using Nat.strong_induction_on generalizing k with
  | h n ih =>
      by_cases hfault : k.scheduler.fault = none
      swap
      · exact .here (Or.inr hfault)
      obtain ⟨id, hrunning⟩ := hk.inv.executing block x hexecutive
      refine .next ?_ fun k' hcontinues => ?_
      · rcases hprogress with ⟨header, hanswer⟩ | ⟨x', hmove⟩
        · exact ⟨_, hfault, .setResult hexecutive hanswer hrunning⟩
        · exact ⟨_, hfault, .execution hexecutive (hpast.symm ▸ hmove)⟩
      · obtain ⟨-, hworks⟩ := hcontinues
        have hk' : Steps d k' := Relation.ReflTransGen.tail hk hworks.toStep
        cases hworks with
        | @execution block' y y' hexecutive' hmove =>
            rw [hexecutive] at hexecutive'
            cases hexecutive'
            exact hmoves y' (hpast ▸ hmove) _ hk' rfl hpast
        | @setResult block' y id' number header hexecutive' hanswer =>
            rw [hexecutive] at hexecutive'
            cases hexecutive'
            rw [← hpast]
            exact (inevitable_rests hk' rfl).mono fun _ hrest =>
              hrest.imp_left fun hrest => ⟨header, hrest⟩
        | executeFailed hexecutive' hanswer =>
            rw [hexecutive] at hexecutive'
            cases hexecutive'
            exact absurd hanswer (hno _)
        | beside hgoes hstep =>
            have hlt := hstep.remaining_lt hgoes
            exact ih _ (hn ▸ hlt) _ hk' hexecutive hpast rfl

/-- The only fault is that of a call that had found the mutex taken. -/
theorem Works.busy_fault (h : Works d r r') (hr : Steps d r) (hfault : r.scheduler.fault = none) :
    r'.scheduler.busy ⊆ r.scheduler.busy ∧
      (r'.scheduler.fault = none ∨ r.scheduler.busy ≠ [] ∧ r'.Aborted) := by
  cases h with
  | execution | setResult | executeFailed => exact ⟨List.Subset.refl _, Or.inl hfault⟩
  | beside hgoes hstep =>
      obtain ⟨hbusy, hkeeps⟩ := hstep.busy_fault hgoes hr.inv.reachable.queueInv
      exact ⟨hbusy, hkeeps.imp (fun hsame => hsame.trans hfault) id⟩

/-- A fault on the way to `P` is that of a call that had found the mutex taken at the
start. -/
theorem Steps.inevitable_or_aborted (h : Steps d r) (hfault : r.scheduler.fault = none)
    {P : Replica → Prop}
    (hinevitable : Inevitable (Continues d) (fun k => P k ∨ k.scheduler.fault ≠ none) r) :
    Inevitable (Continues d) (fun k => P k ∨ r.scheduler.busy ≠ [] ∧ k.Aborted) r := by
  have hkept := hinevitable.with_invariant
    (I := fun k => Steps d k ∧ k.scheduler.busy ⊆ r.scheduler.busy ∧
      (k.scheduler.fault = none ∨ r.scheduler.busy ≠ [] ∧ k.Aborted))
    ⟨h, List.Subset.refl _, Or.inl hfault⟩ ?_
  · refine hkept.mono ?_
    rintro k ⟨hP | hne, -, -, hnone | haborted⟩
    · exact Or.inl hP
    · exact Or.inl hP
    · exact absurd hnone hne
    · exact Or.inr haborted
  · rintro k k' ⟨hk, hbusy, -⟩ ⟨hnone, hworks⟩
    obtain ⟨hbusy', hfault'⟩ := hworks.busy_fault hk hnone
    have hrun := Relation.ReflTransGen.tail hk hworks.toStep
    refine ⟨hrun, List.Subset.trans hbusy' hbusy, hfault'.imp_right ?_⟩
    rintro ⟨hne, haborted⟩
    refine ⟨fun hnil => hne ?_, haborted⟩
    rw [hnil] at hbusy
    exact List.subset_nil.mp hbusy

end Replica

/-! ### The executive -/

namespace Execution

variable {env : ExecuteEnv} {executors : Executors} {replies : BlockReplies} {m : Machine}

/-- After the callback of `DMTExecute` there is no step. -/
theorem AnsweredSteps.final (hx : AnsweredSteps env block executors replies x) (hm : m ∈ x.dmts)
    {outcome : Outcome} (hphase : m.phase = .finished outcome) :
    ¬ AnsweredStep env block executors replies x x' := by
  intro hstep
  obtain hnone | ⟨⟨m', hdmts⟩, hnext, hdag⟩ := (Steps.inv hx.toSteps).once
  · rw [hnone] at hm
    cases hm
  · obtain rfl : m = m' := by simpa [hdmts] using hm
    obtain ⟨k, hmachine, -⟩ := hstep.dmt_cases hdmts hnext hdag
    cases hmachine with
    | visit hbatching | allSended hbatching | check hbatching | reply hbatching =>
        rw [hphase] at hbatching
        cases hbatching
    | hash hhashing =>
        rw [hphase] at hhashing
        cases hhashing

/-- An execution that goes on has not answered an error. -/
theorem AnsweredSteps.no_error (hx : AnsweredSteps env block executors replies x)
    (hanswers : replies.Answers env block) (hstep : AnsweredStep env block executors replies x x') :
    ∀ e, .error e ∉ x.answers := by
  intro e he
  simp only [Execution.answers, hx.errors_nil hanswers, List.map_nil, List.nil_append,
    List.mem_filterMap] at he
  obtain ⟨m, hm, hanswer⟩ := he
  obtain ⟨outcome, hphase⟩ := Machine.answer_eq_some hanswer
  exact hx.final hm hphase hstep

/-- Every step is a move or none at all. -/
theorem AnsweredSteps.moves (hx : AnsweredSteps env block executors replies x) :
    Relation.ReflTransGen (Moves env block executors replies) (Execution.start env block) x := by
  induction hx with
  | refl => exact Relation.ReflTransGen.refl
  | @tail y y' _ hstep ih =>
      by_cases heq : y' = y
      · exact heq ▸ ih
      · exact ih.tail ⟨hstep, heq⟩

theorem Completed.exists_answer (h : x.Completed env block executors)
    (hstatic : env.staticCall = false) :
    ∃ m ∈ x.dmts, ∃ header, m.phase = .finished (.success (some header)) ∧
      x.answers = [.ok (some header)] := by
  obtain ⟨m, header, hdmts, hanswers, ⟨header', hphase, hheader⟩, -⟩ := h
  have hmem : .ok header' ∈ x.answers := by
    rw [Execution.answers, hdmts]
    simp [Machine.answer, hphase]
  obtain rfl : header' = header := by simpa [hanswers] using hmem
  rcases hheader with ⟨htrue, -⟩ | ⟨root, -, rfl⟩
  · rw [hstatic] at htrue
    cases htrue
  · exact ⟨m, by simp [hdmts], _, hphase, hanswers⟩

end Execution

/-- Executors and replies are well-behaved for a block after the blocks of `past`. -/
structure Deployment.Behaves (d : Deployment) (limit : Nat)
    (past : List (Block × Option BlockHeader)) (block : Block) : Prop where
  keepsFrame : (d.executors past).KeepsFrame
  keepsContract : (d.executors past).KeepsContract
  settles : (d.executors past).Settles limit
  answers : (d.executors past).Answers
  succeeds : (d.executors past).Succeeds
  replies : (d.replies past block).Answers d.executeEnv block
  fresh : Execution.AlwaysFresh d.executeEnv block (d.executors past) (d.replies past block)

/-- From wherever the executive is, it completes its block. -/
theorem Deployment.Behaves.inevitable_completed (h : d.Behaves limit past block)
    (hx : Execution.AnsweredSteps d.executeEnv block (d.executors past) (d.replies past block) x) :
    Inevitable (Execution.Moves d.executeEnv block (d.executors past) (d.replies past block))
      (fun x => x.Completed d.executeEnv block (d.executors past) ∧
        Execution.AnsweredSteps d.executeEnv block (d.executors past) (d.replies past block) x)
      x := by
  have hstart := (Execution.inevitable_completed h.keepsFrame h.keepsContract h.settles h.answers
    h.succeeds rfl h.replies h.fresh).with_invariant
      (I := Execution.AnsweredSteps d.executeEnv block (d.executors past) (d.replies past block))
      Relation.ReflTransGen.refl fun _ _ hrun hmove => Relation.ReflTransGen.tail hrun hmove.1
  apply hstart.along ?_ hx.moves
  rintro y y' ⟨hcompleted, hy⟩ hmove
  obtain ⟨m, hm, header, hphase, -⟩ := hcompleted.exists_answer rfl
  exact hy.final hm hphase hmove.1

theorem Replica.inevitable_rests_of_executive (h : d.Behaves limit past block)
    (hx : Execution.AnsweredSteps d.executeEnv block (d.executors past) (d.replies past block) x) :
    ∀ k, Steps d k → k.executive = some (block, x) → k.executed = past →
      Inevitable (Continues d) (RestsAfter past block) k := by
  have hcompletes := h.inevitable_completed hx
  induction hcompletes with
  | @here y hy =>
      obtain ⟨m, hm, header, hphase, hanswers⟩ := hy.1.exists_answer rfl
      apply inevitable_rests_of_moves
      · simp [hanswers]
      · exact Or.inl ⟨header, by simp [hanswers]⟩
      · exact fun x' hmove => absurd hmove.1 (hy.2.final hm hphase)
  | @next y hmove _ ih =>
      obtain ⟨x', hmove⟩ := hmove
      apply inevitable_rests_of_moves
      · exact hx.no_error h.replies hmove.1
      · exact Or.inr ⟨x', hmove⟩
      · exact fun x' hmove => ih x' hmove (Relation.ReflTransGen.tail hx hmove.1)

/-- **A node comes to rest.**  From every reachable state of a node whose executors are
well-behaved for the block that is executing, if any, whose callbacks are called once, and
without new requests: in whatever
order the executive and the commit requests go on, and also if a commit or its ledger query ends
without an answer, the node comes to a state in which both mutexes are free and no request waits;
the executing block was executed with a header, and every block that was ever executed has its
answer.  The one other end is the failed assertion of a `commitBlock` that had found the commit
mutex taken and had not looked at the queue. -/
theorem replica_quiesces (h : Replica.Steps d r) (hfault : r.scheduler.fault = none)
    (hbehaves : ∀ block x, r.executive = some (block, x) → d.Behaves limit r.executed block) :
    (r.executive = none → Inevitable (Replica.Continues d)
      (fun r' => Replica.Rests r.executed r' ∨ r.scheduler.busy ≠ [] ∧ r'.Aborted) r) ∧
    ∀ block x, r.executive = some (block, x) →
      Inevitable (Replica.Continues d)
        (fun r' => (∃ header, Replica.Rests (r.executed ++ [(block, some header)]) r') ∨
          r.scheduler.busy ≠ [] ∧ r'.Aborted) r := by
  refine ⟨fun hnone => h.inevitable_or_aborted hfault (Replica.inevitable_rests h hnone),
    fun block x hexecutive => h.inevitable_or_aborted hfault ?_⟩
  exact Replica.inevitable_rests_of_executive (hbehaves block x hexecutive)
    (h.inv.executive block x hexecutive) r h hexecutive rfl

/-- Executors that finish a frame at the third message of its transaction. -/
def bouncingDeployment : Deployment where
  env := plainEnv
  executors := fun _ => .ofFun (bouncing 3) plainRoot
  replies := fun _ block => finishedGroups plainEnv block

/-- A node that has accepted a DAG transaction and a request to commit it. -/
theorem replica_quiesces_dag_call :
    ∃ r : Replica, Replica.Steps bouncingDeployment r ∧ r.scheduler.commit = .testing 7 ∧
      Inevitable (Replica.Continues bouncingDeployment)
        (fun r' => ∃ header, Replica.Rests [(dagCallsTo ["a"], some header)] r') r := by
  let block := dagCallsTo ["a"]
  let accepted := Replica.executeBlock bouncingDeployment {} block
  have hbehaves : bouncingDeployment.Behaves 3 [] block :=
    { keepsFrame := bouncing_keepsFrame 3
      keepsContract := bouncing_keepsContract 3
      settles := bouncing_settles 3
      answers := ofFun_answers _ _
      succeeds := bouncing_succeeds 3
      replies := finishedGroups_answers _ _ (by decide +kernel)
      fresh := alwaysFresh_of_size (by decide +kernel) }
  have hsteps : Replica.Steps bouncingDeployment
      { accepted with scheduler := accepted.scheduler.commitBlock 7 } :=
    Relation.ReflTransGen.tail (.single (.executeBlock block)) (.beside rfl (.commitBlock 7))
  have hexecuting : ∀ block' x, accepted.executive = some (block', x) →
      bouncingDeployment.Behaves 3 [] block' := by
    intro block' x hx
    cases hx
    exact hbehaves
  refine ⟨_, hsteps, rfl, ((replica_quiesces hsteps rfl hexecuting).2 block _ rfl).mono ?_⟩
  rintro r' (hrests | ⟨hbusy, -⟩)
  · exact hrests
  · exact absurd rfl hbusy

end BcosScheduler
