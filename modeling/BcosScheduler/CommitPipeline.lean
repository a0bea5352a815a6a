/-
BcosScheduler/CommitPipeline.lean

`commitBlock` with the components it goes through: `asyncCommit` of the front
block, `asyncGetLedgerConfig`, and the notifier.

`BcosScheduler.Scheduler` takes the result of the two-phase commit and of the ledger
query as given.  Here the first is the end of a run of atomic handlers of
`BcosScheduler.CommitAnswer`, with any outcomes, and the second the first call of the
callback of `BcosScheduler.LedgerConfig`, or the end of the queries without one; the
handlers interleave with all other requests to the scheduler.  Every run is one of
`SchedulerImpl` (`Inv.reachable`), and a commit is answered without an error only after
storage and all executors have committed this block (`commitBlock_durable`).
-/
import BcosScheduler.BlockQueue
import BcosScheduler.CommitAnswer
import BcosScheduler.LedgerConfig

namespace BcosScheduler

open AsyncCommit (Outcomes HandlerRun Handle)

/-! ### Steps outside the pipeline -/

namespace Scheduler

variable {s s' : Scheduler} {e : Event}

/-- The events that the components of a commit decide on. -/
def Event.ofComponents : Event → Bool
  | .commitTest | .commitDone _ | .ledgerConfigDone _ | .ledgerConfigLost => true
  | _ => false

/-- What the other events do to the commit stage and to what is told about commits. -/
structure Outside (s s' : Scheduler) : Prop where
  stage : s'.commit = s.commit ∨ (∃ number, s.commit = .free ∧ s'.commit = .testing number) ∨
    (∃ id number error, s.commit = .notifying id number ∧ s'.commit = .popped number error) ∨
    (∃ number error, s.commit = .popped number error ∧ s'.commit = .free) ∨
    ∃ number error, s.commit = .refusing number error ∧ s'.commit = .free
  answers : ∀ number held, Answer.commit number none held ∈ s'.answers →
    Answer.commit number none held ∈ s.answers ∨ s.commit = .popped number none
  committed : s'.committed = s.committed

/-- Steps that leave the commit stage and give no good answer to a commit. -/
theorem Outside.of_same (hcommit : s'.commit = s.commit)
    (hanswers : s'.answers = s.answers ∨ ∃ a, s'.answers = s.answers ++ [a] ∧
      ∀ number held, a ≠ .commit number none held)
    (hcommitted : s'.committed = s.committed) : Outside s s' where
  stage := Or.inl hcommit
  answers := by
    intro number held ha
    left
    rcases hanswers with hsame | ⟨a, hnew, hne⟩
    · exact hsame ▸ ha
    · rw [hnew] at ha
      rcases List.mem_append.mp ha with ha | ha
      · exact ha
      · exact absurd (List.mem_singleton.mp ha).symm (hne number held)
  committed := hcommitted

theorem executeBlock_outside (s : Scheduler) (number : BlockNumber) :
    Outside s (s.executeBlock number) := by
  have hanswer : ∀ k error header held,
      Outside s (s.answer (.execute k error header held)) :=
    fun k error header held => .of_same rfl (Or.inr ⟨_, rfl, by simp⟩) rfl
  unfold Scheduler.executeBlock
  split
  · split
    · split_ifs
      · unfold answerExecuted
        split
        · exact hanswer _ _ _ _
        · exact .of_same rfl (Or.inl rfl) rfl
      · exact hanswer _ _ _ _
      · exact .of_same rfl (Or.inl rfl) rfl
    · split_ifs
      · exact hanswer _ _ _ _
      · exact .of_same rfl (Or.inl rfl) rfl
  · exact hanswer _ _ _ _

theorem Step.outside (hstep : Step s e s') (houtside : e.ofComponents = false) :
    Outside s s' := by
  cases hstep with
  | commitTest | commitDone | ledgerConfigDone | ledgerConfigLost => cases houtside
  | executeBlock number => exact executeBlock_outside s number
  | executeFailed | executeSucceeded => exact .of_same rfl (Or.inr ⟨_, rfl, by simp⟩) rfl
  | setResult | registerTransactionNotifier => exact .of_same rfl (Or.inl rfl) rfl
  | commitBlock number =>
      unfold Scheduler.commitBlock
      split_ifs with hfree
      · exact ⟨Or.inr (Or.inl ⟨number, hfree, rfl⟩), fun _ _ => Or.inl, rfl⟩
      · exact .of_same rfl (Or.inl rfl) rfl
  | commitBusy hmem =>
      unfold Scheduler.commitBusy
      split
      · exact .of_same rfl (Or.inl rfl) rfl
      · exact .of_same rfl (Or.inr ⟨_, rfl, by simp⟩) rfl
  | @commitRefused number error hrefusing =>
      refine ⟨Or.inr (Or.inr (Or.inr (Or.inr ⟨number, error, hrefusing, rfl⟩))),
        fun k held ha => ?_, rfl⟩
      rcases List.mem_append.mp ha with ha | ha
      · exact Or.inl ha
      · cases List.mem_singleton.mp ha
  | @notified id number error hnotifying =>
      refine ⟨Or.inr (Or.inr (Or.inl ⟨id, number, error, hnotifying, ?_⟩)), ?_, ?_⟩
      all_goals
        unfold popFront
        split
      · rfl
      · rfl
      · exact fun _ _ => Or.inl
      · exact fun _ _ => Or.inl
      · rfl
      · rfl
  | @commitAnswered number error hpopped =>
      refine ⟨Or.inr (Or.inr (Or.inr (Or.inl ⟨number, error, hpopped, rfl⟩))),
        fun k held ha => ?_, rfl⟩
      rcases List.mem_append.mp ha with ha | ha
      · exact Or.inl ha
      · cases List.mem_singleton.mp ha
        exact Or.inr hpopped

end Scheduler

/-! ### The pipeline -/

/-- `SchedulerImpl` with the components of its commit.  `commits` are the two-phase commits that
succeeded, with their outcomes, and `configs` the configurations the ledger gave after them. -/
structure CommitPipeline (n : Nat) (N : Type*) where
  scheduler : Scheduler := {}
  asyncCommit : Option (Outcomes n × AsyncCommit n) := none
  ledger : Option (LedgerQueries N) := none
  commits : List (BlockNumber × Outcomes n) := []
  configs : List (BlockNumber × LedgerConfig N) := []

namespace CommitPipeline

variable {n : Nat} {N : Type*} {initial : LedgerConfig N} {p p' : CommitPipeline n N}

/-- One step; `initial` is the configuration that `make_shared` gives. -/
inductive Step (initial : LedgerConfig N) : CommitPipeline n N → CommitPipeline n N → Prop
  | outside {p : CommitPipeline n N} {e : Scheduler.Event} {s : Scheduler} :
      e.ofComponents = false → Scheduler.Step p.scheduler e s →
      Step initial p { p with scheduler := s }
  /-- The call will be refused. -/
  | refuse {p : CommitPipeline n N} {number : BlockNumber} {error : Error} {s : Scheduler} :
      p.scheduler.commit = .testing number → s = p.scheduler.commitTest number →
      s.commit = .refusing number error → Step initial p { p with scheduler := s }
  /-- `asyncCommit` of the front is called. -/
  | commit {p : CommitPipeline n N} {number : BlockNumber} {s : Scheduler} {id : Nat}
      {front : BlockNumber} (o : Outcomes n) :
      p.scheduler.commit = .testing number → s = p.scheduler.commitTest number →
      s.commit = .committing id front →
      Step initial p { p with scheduler := s, asyncCommit := some (o, {}) }
  | handle {p : CommitPipeline n N} {number : BlockNumber} {id : Nat} {o : Outcomes n}
      {s s' : AsyncCommit n} : p.scheduler.commit = .committing id number →
      p.asyncCommit = some (o, s) → Handle number o s s' →
      Step initial p { p with asyncCommit := some (o, s') }
  /-- The callback of `asyncCommit` is called with a null error. -/
  | committed {p : CommitPipeline n N} {number : BlockNumber} {id : Nat} {o : Outcomes n}
      {s : AsyncCommit n} : p.scheduler.commit = .committing id number →
      p.asyncCommit = some (o, s) → none ∈ s.answers →
      Step initial p { p with scheduler := p.scheduler.commitDone id number .committed
                              asyncCommit := none
                              ledger := some (LedgerQueries.start initial)
                              commits := p.commits ++ [(number, o)] }
  /-- It is called with an error. -/
  | failed {p : CommitPipeline n N} {number : BlockNumber} {id : Nat} {o : Outcomes n}
      {s : AsyncCommit n} {error : Error} (storage : Bool) :
      p.scheduler.commit = .committing id number → p.asyncCommit = some (o, s) →
      some error ∈ s.answers → (storage = true ↔ s.StorageCommitted) →
      Step initial p { p with scheduler := p.scheduler.commitDone id number (.failed storage)
                              asyncCommit := none }
  /-- It is gone without having been called. -/
  | rolledBack {p : CommitPipeline n N} {number : BlockNumber} {id : Nat} {o : Outcomes n}
      {s : AsyncCommit n} : p.scheduler.commit = .committing id number →
      p.asyncCommit = some (o, s) → s.AllReplied → s.answers = [] →
      Step initial p { p with scheduler := p.scheduler.commitDone id number .rolledBack
                              asyncCommit := none }
  | query {p : CommitPipeline n N} {q q' : LedgerQueries N} : p.ledger = some q →
      LedgerQueries.Step q q' → Step initial p { p with ledger := some q' }
  /-- The callback of `asyncGetLedgerConfig` is called with a configuration. -/
  | config {p : CommitPipeline n N} {number : BlockNumber} {id : Nat} {q : LedgerQueries N}
      {config : LedgerConfig N} : p.scheduler.commit = .querying id number →
      p.ledger = some q → .ok config ∈ q.callbacks →
      Step initial p { p with scheduler := p.scheduler.ledgerConfigDone id number true
                              ledger := none
                              configs := p.configs ++ [(number, config)] }
  /-- It is called with an error. -/
  | noConfig {p : CommitPipeline n N} {number : BlockNumber} {id : Nat} {q : LedgerQueries N}
      {error : Error} : p.scheduler.commit = .querying id number →
      p.ledger = some q → .error error ∈ q.callbacks →
      Step initial p { p with scheduler := p.scheduler.ledgerConfigDone id number false
                              ledger := none }
  /-- A handler of the queries has thrown, the callback is gone without having been called. -/
  | configLost {p : CommitPipeline n N} {number : BlockNumber} {id : Nat} {q : LedgerQueries N}
      {query : LedgerQuery} : p.scheduler.commit = .querying id number → p.ledger = some q →
      q.stage query = .thrown →
      Step initial p { p with scheduler := p.scheduler.ledgerConfigLost, ledger := none }

/-- Any number of steps of a fresh scheduler. -/
def Steps (initial : LedgerConfig N) : CommitPipeline n N → Prop :=
  Relation.ReflTransGen (Step initial) {}

/-! ### Invariant -/

/-- `asyncCommit` calls back with a null error only when everybody succeeded in both phases. -/
theorem succeeds_of_answer {number : BlockNumber} {o : Outcomes n} {s : AsyncCommit n}
    (hn : 1 ≤ n) (hrun : HandlerRun number o s) (hnull : none ∈ s.answers) :
    o.prewrite = true ∧ (∀ q, o.prepare q = true) ∧ ∀ q, o.commit q = true := by
  cases (hrun.inv hn).stage with
  | started _ _ _ hanswers | preparing _ _ _ _ hanswers => simp [hanswers] at hnull
  | refused _ _ _ _ hanswers => simp [hanswers] at hnull
  | committing c _ ho _ hok _ hsound hanswers =>
      rw [hanswers] at hnull
      have hfull : c.status.full = true := by
        by_contra hnot
        rw [AsyncCommit.commitAnswer_of_not_full (Bool.not_eq_true _ ▸ hnot)] at hnull
        cases hnull
      have hdone := AsyncCommit.commitAnswer_done hsound (hsound.counts.full_iff.mp hfull)
      obtain ⟨a, ha⟩ := List.length_eq_one_iff.mp hdone.1
      obtain rfl : none = a := by simpa [ha] using hnull
      exact ⟨ho, hok, hdone.2.mp ha⟩
  | rollingBack c _ _ _ _ _ _ hanswers =>
      rw [hanswers, AsyncCommit.rollbackAnswer] at hnull
      split_ifs at hnull <;> simp at hnull

/-- Committed by everybody, and the configuration was read afterwards. -/
def Durable (p : CommitPipeline n N) (number : BlockNumber) : Prop :=
  number ∈ p.commits.map Prod.fst ∧ number ∈ p.configs.map Prod.fst

structure Inv (initial : LedgerConfig N) (p : CommitPipeline n N) : Prop where
  reachable : p.scheduler.Reachable
  asyncCommit : ∀ o s, p.asyncCommit = some (o, s) →
    ∃ id number, p.scheduler.commit = .committing id number ∧ HandlerRun number o s
  ledger : ∀ q, p.ledger = some q →
    (∃ id number, p.scheduler.commit = .querying id number) ∧ LedgerQueries.Steps initial q
  commits : ∀ c ∈ p.commits, c.2.prewrite = true ∧ (∀ q, c.2.prepare q = true) ∧
    ∀ q, c.2.commit q = true
  configs : ∀ c ∈ p.configs, ∃ q, LedgerQueries.Steps initial q ∧ q.Complete c.2
  log : p.scheduler.committed = p.commits.map Prod.fst
  querying : ∀ id number, p.scheduler.commit = .querying id number →
    number ∈ p.commits.map Prod.fst
  notifying : ∀ id number, p.scheduler.commit = .notifying id number → p.Durable number
  popped : ∀ number, p.scheduler.commit = .popped number none → p.Durable number
  answers : ∀ number held, Answer.commit number none held ∈ p.scheduler.answers →
    p.Durable number

theorem Inv.init : Inv initial ({} : CommitPipeline n N) where
  reachable := Relation.ReflTransGen.refl
  asyncCommit := by simp
  ledger := by simp
  commits := by simp
  configs := by simp
  log := rfl
  querying := by simp
  notifying := by simp
  popped := by simp
  answers := by simp

/-- A stage in which no component is at work and nothing is promised. -/
theorem Inv.idle (h : Inv initial p) {s : Scheduler} (hreach : s.Reachable)
    (hidle : s.commit = .free ∨ ∃ number error, s.commit = .refusing number error)
    (hanswers : ∀ number held, Answer.commit number none held ∈ s.answers →
      Answer.commit number none held ∈ p.scheduler.answers)
    (hcommitted : s.committed = p.scheduler.committed) :
    Inv initial { p with scheduler := s, asyncCommit := none, ledger := none } := by
  refine ⟨hreach, by simp, by simp, h.commits, h.configs, hcommitted.trans h.log, ?_, ?_, ?_,
    fun number held ha => h.answers number held (hanswers number held ha)⟩
  all_goals
    intros
    rcases hidle with hfree | ⟨number, error, hrefusing⟩ <;> simp_all

theorem Inv.outside (h : Inv initial p) {e : Scheduler.Event} {s : Scheduler}
    (houtside : e.ofComponents = false) (hstep : Scheduler.Step p.scheduler e s) :
    Inv initial { p with scheduler := s } := by
  have hkeeps := hstep.outside houtside
  have hreach : s.Reachable := Relation.ReflTransGen.tail h.reachable ⟨e, hstep⟩
  have hanswers : ∀ number held, Answer.commit number none held ∈ s.answers →
      p.Durable number := by
    intro number held ha
    rcases hkeeps.answers number held ha with ha | hpopped
    · exact h.answers number held ha
    · exact h.popped number hpopped
  -- a component is at work only in the stages that such a step leaves alone
  have hnone : ∀ {stage}, p.scheduler.commit = stage →
      (∀ id number, stage ≠ .committing id number) → (∀ id number, stage ≠ .querying id number) →
      p.asyncCommit = none ∧ p.ledger = none := by
    intro stage hstage hnocommit hnoquery
    constructor
    · by_contra hsome
      obtain ⟨⟨o, c⟩, hc⟩ := Option.ne_none_iff_exists'.mp hsome
      obtain ⟨id, number, hcommitting, -⟩ := h.asyncCommit o c hc
      exact hnocommit id number (hstage.symm.trans hcommitting)
    · by_contra hsome
      obtain ⟨q, hq⟩ := Option.ne_none_iff_exists'.mp hsome
      obtain ⟨⟨id, number, hquerying⟩, -⟩ := h.ledger q hq
      exact hnoquery id number (hstage.symm.trans hquerying)
  rcases hkeeps.stage with hsame | ⟨number, hfree, htesting⟩ |
    ⟨id, number, error, hnotifying, hpopped⟩ | ⟨number, error, hpopped, hfree⟩ |
    ⟨number, error, hrefusing, hfree⟩
  · refine ⟨hreach, fun o c hc => hsame ▸ h.asyncCommit o c hc, fun q hq => hsame ▸ h.ledger q hq,
      h.commits, h.configs, hkeeps.committed.trans h.log, ?_, ?_, ?_, hanswers⟩
    · exact fun id number hquerying => h.querying id number (hsame ▸ hquerying)
    · exact fun id number hnotifying => h.notifying id number (hsame ▸ hnotifying)
    · exact fun number hpopped => h.popped number (hsame ▸ hpopped)
  · obtain ⟨hcommit, hledger⟩ := hnone hfree (by simp) (by simp)
    exact ⟨hreach, by simp [hcommit], by simp [hledger], h.commits, h.configs,
      hkeeps.committed.trans h.log, by simp [htesting], by simp [htesting], by simp [htesting],
      hanswers⟩
  · obtain ⟨hcommit, hledger⟩ := hnone hnotifying (by simp) (by simp)
    refine ⟨hreach, by simp [hcommit], by simp [hledger], h.commits, h.configs,
      hkeeps.committed.trans h.log, by simp [hpopped], by simp [hpopped], fun k hk => ?_, hanswers⟩
    rw [show s.commit = .popped number error from hpopped] at hk
    cases hk
    exact h.notifying id number hnotifying
  · obtain ⟨hcommit, hledger⟩ := hnone hpopped (by simp) (by simp)
    exact ⟨hreach, by simp [hcommit], by simp [hledger], h.commits, h.configs,
      hkeeps.committed.trans h.log, by simp [hfree], by simp [hfree], by simp [hfree], hanswers⟩
  · obtain ⟨hcommit, hledger⟩ := hnone hrefusing (by simp) (by simp)
    exact ⟨hreach, by simp [hcommit], by simp [hledger], h.commits, h.configs,
      hkeeps.committed.trans h.log, by simp [hfree], by simp [hfree], by simp [hfree], hanswers⟩

/-- More commits and configurations do not make a number less durable. -/
theorem Durable.mono {number : BlockNumber} (h : p.Durable number)
    (hcommits : p.commits ⊆ p'.commits) (hconfigs : p.configs ⊆ p'.configs) :
    p'.Durable number :=
  ⟨List.map_subset _ hcommits h.1, List.map_subset _ hconfigs h.2⟩

theorem commitTest_answers {s : Scheduler} {number k : BlockNumber} {held : List SchedulerMutex}
    (h : Answer.commit k none held ∈ (s.commitTest number).answers) :
    Answer.commit k none held ∈ s.answers := by
  rcases Scheduler.commitTest_cases s number with ⟨error, heq⟩ | ⟨front, bs, -, -, heq⟩
  · rw [heq] at h
    exact h
  · rw [heq] at h
    exact h

theorem commitTest_committed (s : Scheduler) (number : BlockNumber) :
    (s.commitTest number).committed = s.committed := by
  rcases Scheduler.commitTest_cases s number with ⟨error, heq⟩ | ⟨front, bs, -, -, heq⟩
  · rw [heq]
    rfl
  · rw [heq]

/-- No component is at work while a request has not looked at the queue. -/
theorem Inv.ledger_eq_none (h : Inv initial p)
    (hstage : ∀ id number, p.scheduler.commit ≠ .querying id number) : p.ledger = none := by
  by_contra hsome
  obtain ⟨q, hq⟩ := Option.ne_none_iff_exists'.mp hsome
  obtain ⟨⟨id, number, hquerying⟩, -⟩ := h.ledger q hq
  exact hstage id number hquerying

theorem Inv.asyncCommit_eq_none (h : Inv initial p)
    (hstage : ∀ id number, p.scheduler.commit ≠ .committing id number) :
    p.asyncCommit = none := by
  by_contra hsome
  obtain ⟨⟨o, c⟩, hc⟩ := Option.ne_none_iff_exists'.mp hsome
  obtain ⟨id, number, hcommitting, -⟩ := h.asyncCommit o c hc
  exact hstage id number hcommitting

/-- The first reply of the ledger, with a configuration: the commit goes on to the notifier, or
the block is popped. -/
theorem Inv.config (h : Inv initial p) {number : BlockNumber} {id : Nat} {q : LedgerQueries N}
    {config : LedgerConfig N} (hquerying : p.scheduler.commit = .querying id number)
    (hledger : p.ledger = some q) (hanswer : .ok config ∈ q.callbacks) :
    Inv initial { p with scheduler := p.scheduler.ledgerConfigDone id number true
                         ledger := none
                         configs := p.configs ++ [(number, config)] } := by
  have hquery := (h.ledger q hledger).2
  have hcomplete : q.Complete config := by
    obtain ⟨hfull, ⟨hne, -⟩ | ⟨heq, hok⟩⟩ := (LedgerQueries.Steps.inv hquery).2.answers _ hanswer
    · cases hne
    · cases heq
      exact (LedgerQueries.Steps.inv hquery).2.complete hfull hok
  have hnone := h.asyncCommit_eq_none (by simp [hquerying])
  have hsub : p.configs ⊆ p.configs ++ [(number, config)] := List.subset_append_left _ _
  have hdurable : ({ p with scheduler := p.scheduler.ledgerConfigDone id number true
                            ledger := none
                            configs := p.configs ++ [(number, config)] } :
      CommitPipeline n N).Durable number :=
    ⟨h.querying id number hquerying, by simp⟩
  have hreach : (p.scheduler.ledgerConfigDone id number true).Reachable :=
    Relation.ReflTransGen.tail h.reachable ⟨_, .ledgerConfigDone true hquerying⟩
  -- what `pop_front` leaves alone
  have hpop : (p.scheduler.popFront number none).commit = .popped number none ∧
      (p.scheduler.popFront number none).answers = p.scheduler.answers ∧
      (p.scheduler.popFront number none).committed = p.scheduler.committed := by
    unfold Scheduler.popFront
    split <;> exact ⟨rfl, rfl, rfl⟩
  have hcases : ((p.scheduler.ledgerConfigDone id number true).commit = .notifying id number ∨
        (p.scheduler.ledgerConfigDone id number true).commit = .popped number none) ∧
      (p.scheduler.ledgerConfigDone id number true).answers = p.scheduler.answers ∧
      (p.scheduler.ledgerConfigDone id number true).committed = p.scheduler.committed := by
    rw [Scheduler.ledgerConfigDone, if_pos rfl]
    split_ifs
    · exact ⟨Or.inl rfl, rfl, rfl⟩
    · exact ⟨Or.inr hpop.1, hpop.2⟩
  obtain ⟨hstage, hanswers, hcommitted⟩ := hcases
  refine ⟨hreach, by simp [hnone], by simp, h.commits, fun c hc => ?_, hcommitted.trans h.log,
    fun id' k hk => ?_, fun id' k hk => ?_, fun k hk => ?_, fun k held ha => ?_⟩
  · rcases List.mem_append.mp hc with hc | hc
    · exact h.configs c hc
    · rw [List.mem_singleton.mp hc]
      exact ⟨q, hquery, hcomplete⟩
  · rcases hstage with hs | hs <;> rw [hs] at hk <;> cases hk
  · rcases hstage with hs | hs <;> rw [hs] at hk <;> cases hk
    exact hdurable
  · rcases hstage with hs | hs <;> rw [hs] at hk <;> cases hk
    exact hdurable
  · exact (h.answers k held (hanswers ▸ ha)).mono (List.Subset.refl _) hsub

theorem Step.inv (hn : 1 ≤ n) (hstep : Step initial p p') (h : Inv initial p) : Inv initial p' := by
  cases hstep with
  | outside houtside hs => exact h.outside houtside hs
  | @refuse number error s htesting hs hrefusing =>
      have hreach : s.Reachable := by
        rw [hs]
        exact Relation.ReflTransGen.tail h.reachable ⟨_, .commitTest htesting⟩
      have hidle := h.idle hreach (Or.inr ⟨number, error, hrefusing⟩)
        (fun k held ha => commitTest_answers (hs ▸ ha)) (hs ▸ commitTest_committed _ _)
      have hnone := h.asyncCommit_eq_none (by simp [htesting])
      have hledger := h.ledger_eq_none (by simp [htesting])
      rw [← hnone, ← hledger] at hidle
      exact hidle
  | @commit number s id front o htesting hs hcommitting =>
      have hreach : s.Reachable := by
        rw [hs]
        exact Relation.ReflTransGen.tail h.reachable ⟨_, .commitTest htesting⟩
      have hledger := h.ledger_eq_none (by simp [htesting])
      have hcommitted : s.committed = p.scheduler.committed := hs ▸ commitTest_committed _ _
      refine ⟨hreach, fun o' c hc => ?_, by simp [hledger], h.commits, h.configs,
        hcommitted.trans h.log, by simp [hcommitting], by simp [hcommitting],
        by simp [hcommitting], fun k held ha => h.answers k held (commitTest_answers (hs ▸ ha))⟩
      cases hc
      exact ⟨id, front, hcommitting, Relation.ReflTransGen.refl⟩
  | @handle number id o c c' hcommitting hcommit hhandle =>
      refine { h with asyncCommit := fun o' c'' hc => ?_ }
      cases hc
      obtain ⟨id', number', hcommitting', hrun⟩ := h.asyncCommit o c hcommit
      rw [hcommitting] at hcommitting'
      cases hcommitting'
      exact ⟨id, number, hcommitting, Relation.ReflTransGen.tail hrun hhandle⟩
  | @committed number id o c hcommitting hcommit hanswer =>
      obtain ⟨id', number', hcommitting', hrun⟩ := h.asyncCommit o c hcommit
      rw [hcommitting] at hcommitting'
      cases hcommitting'
      have hreach : (p.scheduler.commitDone id number .committed).Reachable :=
        Relation.ReflTransGen.tail h.reachable ⟨_, .commitDone .committed hcommitting⟩
      have hsub : p.commits ⊆ p.commits ++ [(number, o)] := List.subset_append_left _ _
      refine ⟨hreach, by simp, fun q hq => ?_, fun k hk => ?_, h.configs, ?_, fun id' k hk => ?_,
        by simp [Scheduler.commitDone], by simp [Scheduler.commitDone], fun k held ha => ?_⟩
      · cases hq
        exact ⟨⟨id, number, rfl⟩, Relation.ReflTransGen.refl⟩
      · rcases List.mem_append.mp hk with hk | hk
        · exact h.commits k hk
        · rw [List.mem_singleton.mp hk]
          exact succeeds_of_answer hn hrun hanswer
      · simp [Scheduler.commitDone, h.log]
      · cases hk
        simp
      · exact (h.answers k held ha).mono hsub (List.Subset.refl _)
  | @failed number id o c error storage hcommitting hcommit =>
      have hledger := h.ledger_eq_none (by simp [hcommitting])
      have hidle := h.idle
        (Relation.ReflTransGen.tail h.reachable ⟨_, .commitDone (.failed storage) hcommitting⟩)
        (Or.inl rfl) (fun k held ha => by
          simpa [Scheduler.commitDone, Scheduler.refuseCommit, Scheduler.answer] using ha) rfl
      rw [← hledger] at hidle
      exact hidle
  | @rolledBack number id o c hcommitting hcommit =>
      have hledger := h.ledger_eq_none (by simp [hcommitting])
      have hidle := h.idle
        (Relation.ReflTransGen.tail h.reachable ⟨_, .commitDone .rolledBack hcommitting⟩)
        (Or.inl rfl) (fun _ _ ha => ha) rfl
      rw [← hledger] at hidle
      exact hidle
  | @query q q' hledger hs =>
      refine { h with ledger := fun q'' hq => ?_ }
      cases hq
      obtain ⟨hquerying, hrun⟩ := h.ledger q hledger
      exact ⟨hquerying, Relation.ReflTransGen.tail hrun hs⟩
  | config hquerying hledger hanswer => exact h.config hquerying hledger hanswer
  | @noConfig number id q error hquerying hledger =>
      have hnone := h.asyncCommit_eq_none (by simp [hquerying])
      have hidle := h.idle
        (Relation.ReflTransGen.tail h.reachable ⟨_, .ledgerConfigDone false hquerying⟩)
        (Or.inl rfl) (fun k held ha => by
          simpa [Scheduler.ledgerConfigDone, Scheduler.refuseCommit, Scheduler.answer] using ha) rfl
      rw [← hnone] at hidle
      exact hidle
  | @configLost number id q query hquerying hledger =>
      have hnone := h.asyncCommit_eq_none (by simp [hquerying])
      have hidle := h.idle (Relation.ReflTransGen.tail h.reachable ⟨_, .ledgerConfigLost hquerying⟩)
        (Or.inl rfl) (fun _ _ ha => ha) rfl
      rw [← hnone] at hidle
      exact hidle

theorem Steps.inv (hn : 1 ≤ n) (h : Steps initial p) : Inv initial p := by
  induction h with
  | refl => exact .init
  | tail _ hstep ih => exact hstep.inv hn ih

/-! ### Runs of the components -/

theorem Steps.handle_run (h : Steps initial p) {number : BlockNumber} {id : Nat} {o : Outcomes n}
    {c : AsyncCommit n} (hcommitting : p.scheduler.commit = .committing id number)
    (hcommit : p.asyncCommit = some (o, {})) (hrun : HandlerRun number o c) :
    Steps initial { p with asyncCommit := some (o, c) } := by
  induction hrun with
  | refl =>
      rw [← hcommit]
      exact h
  | tail _ hhandle ih => exact Relation.ReflTransGen.tail ih (.handle hcommitting rfl hhandle)

theorem Steps.query_run (h : Steps initial p) {q : LedgerQueries N}
    (hledger : p.ledger = some (LedgerQueries.start initial))
    (hrun : LedgerQueries.Steps initial q) : Steps initial { p with ledger := some q } := by
  induction hrun with
  | refl =>
      rw [← hledger]
      exact h
  | tail _ hs ih => exact Relation.ReflTransGen.tail ih (.query rfl hs)

end CommitPipeline

open CommitPipeline

/-- **A good answer to `commitBlock` is durable.**  In every run of the scheduler with its
two-phase commits, of atomic handlers with the storage first, and ledger queries that call back
once or never, whatever their outcomes and however they interleave with other requests: a commit is answered without an error only for a block whose prewrite, all
prepares and all commits succeeded, at the storage and at each of the `n` executors, and after
which the ledger has given a complete configuration.  The numbers the scheduler takes for committed
are exactly those of its successful two-phase commits, in their order. -/
theorem commitBlock_durable {n : Nat} {N : Type*} {initial : LedgerConfig N}
    {p : CommitPipeline n N} (hn : 1 ≤ n) (h : CommitPipeline.Steps initial p) :
    p.scheduler.Reachable ∧ p.scheduler.committed = p.commits.map Prod.fst ∧
    ∀ number held, Answer.commit number none held ∈ p.scheduler.answers →
      (∃ o, (number, o) ∈ p.commits ∧ o.prewrite = true ∧ (∀ q, o.prepare q = true) ∧
        ∀ q, o.commit q = true) ∧
      ∃ config q, (number, config) ∈ p.configs ∧ LedgerQueries.Steps initial q ∧
        q.Complete config := by
  have hinv := h.inv hn
  refine ⟨hinv.reachable, hinv.log, fun number held ha => ?_⟩
  obtain ⟨hcommit, hconfig⟩ := hinv.answers number held ha
  obtain ⟨⟨k, o⟩, hmem, rfl⟩ := List.mem_map.mp hcommit
  obtain ⟨⟨k', config⟩, hmem', heq⟩ := List.mem_map.mp hconfig
  obtain rfl : k' = k := heq
  obtain ⟨q, hq, hcomplete⟩ := hinv.configs _ hmem'
  exact ⟨⟨o, hmem, hinv.commits _ hmem⟩, config, q, hmem', hq, hcomplete⟩

/-! ### One commit -/

namespace LedgerQueries

/-- A handler that runs as a whole. -/
def answered {N : Type*} (s : LedgerQueries N) (q : LedgerQuery) (value : LedgerValue N) :
    LedgerQueries N :=
  ((s.collect q (.ok value)).count q true).test q true

theorem steps_answered {N : Type*} {config : LedgerConfig N} {s : LedgerQueries N}
    {q : LedgerQuery} {value : LedgerValue N} (h : Steps config s)
    (hcollect : Step s (s.collect q (.ok value)))
    (hstored : (s.collect q (.ok value)).stage q = .stored true) :
    Steps config (s.answered q value) :=
  ((h.tail hcollect).tail (.count q hstored)).tail (.test q (Function.update_self _ _ _))

def noConfig : LedgerConfig Nat := ⟨[], [], 0, 0, 0, 0⟩

/-- All queries are answered in their order. -/
def configured : LedgerQueries Nat :=
  let s := (((start noConfig).answered .sealers (.nodeList true [1])
    |>.answered .observers (.nodeList false [2])).answered .txCountLimit (.config 0 "1000")
    |>.answered .leaderPeriod (.config 1 "4"))
  ({ s with number := some (none, 7) }.answered .blockNumber (.number 7)).answered .blockHash
    (.hash 3)

theorem configured_steps : Steps noConfig configured := by
  have h₁ := steps_answered (Relation.ReflTransGen.refl : Steps noConfig (start noConfig))
    (.collect .sealers (.nodeList true [1]) (by decide) (by decide) (.sealers _) rfl) rfl
  have h₂ := steps_answered h₁
    (.collect .observers (.nodeList false [2]) (by decide) (by decide) (.observers _) rfl) rfl
  have h₃ := steps_answered h₂
    (.collect .txCountLimit (.config 0 "1000") (by decide) (by decide) (.txCountLimit _) rfl) rfl
  have h₄ := steps_answered h₃
    (.collect .leaderPeriod (.config 1 "4") (by decide) (by decide) (.leaderPeriod _) rfl) rfl
  have h₅ := steps_answered (h₄.tail (.askHash none 7 rfl))
    (@Step.collectNumber _ _ none 7 rfl rfl) rfl
  exact steps_answered h₅ (.collect .blockHash (.hash 3) (by decide)
    (fun _ => Option.some_ne_none _) (.blockHash _) rfl) rfl

end LedgerQueries

/-- A block is executed and committed with one executor. -/
theorem commitBlock_durable_one : ∃ p : CommitPipeline 1 Nat,
    Answer.commit 7 none [] ∈ p.scheduler.answers ∧
      p.scheduler.committed = p.commits.map Prod.fst ∧
      ∃ o, (7, o) ∈ p.commits ∧ ∀ q, o.commit q = true := by
  let s₁ := ((({} : Scheduler).executeBlock 7).setResult 0 ⟨7, 9, 0⟩).executeSucceeded ⟨7, 9, 0⟩
  have hexecuted : CommitPipeline.Steps LedgerQueries.noConfig
      ({ scheduler := s₁ } : CommitPipeline 1 Nat) :=
    (((Relation.ReflTransGen.refl).tail (.outside rfl (.executeBlock 7))).tail
      (.outside rfl (@Scheduler.Step.setResult _ 0 7 9 0 rfl))).tail
      (.outside rfl (@Scheduler.Step.executeSucceeded _ 0 ⟨7, 9, 0⟩ rfl))
  have hasked := (hexecuted.tail (.outside rfl (.commitBlock 7))).tail
    (@Step.commit _ _ _ _ 7 _ 0 7 (AsyncCommit.oneExecutor true) rfl rfl rfl)
  have hcommitted := (Steps.handle_run hasked rfl rfl AsyncCommit.committed_run).tail
    (@Step.committed _ _ _ _ 7 0 _ _ rfl rfl (by decide))
  have hconfigured := (Steps.query_run hcommitted rfl LedgerQueries.configured_steps).tail
    (@Step.config _ _ _ _ 7 0 _ ⟨[1], [2], 1000, 4, 7, 3⟩ rfl rfl (by decide))
  have hanswered := hconfigured.tail
    (.outside rfl (@Scheduler.Step.commitAnswered _ 7 none rfl))
  obtain ⟨-, hlog, hdurable⟩ := commitBlock_durable (by decide) hanswered
  obtain ⟨⟨o, hmem, -, -, hall⟩, -⟩ :=
    hdurable 7 [] (List.mem_append_right _ List.mem_cons_self)
  refine ⟨_, ?_, hlog, o, hmem, hall⟩
  exact List.mem_append_right _ List.mem_cons_self

end BcosScheduler
