/-
BcosScheduler/CollectedExecution.lean

`asyncExecute` together with the reply handlers of `batchNextBlock` and
`batchGetHashes`.

`Execution` takes the answer of either as one step.  Here both are the
collections of the source, without a once-flag, so their continuations may be
called again.  A second answer of `batchGetHashes` appends all receipts to the
block once more.  A second answer of `batchNextBlock` executes the transactions
of the map again while they are executed; that is not followed any further
(`restarted`).

A run in which the handler of the last reply is alone in its collection is a
run of `Execution` (`CleanSteps.followed`), whose results then hold of it.
-/
import BcosScheduler.Receipts
import BcosScheduler.BatchFanIn
import BcosScheduler.Hashes

namespace BcosScheduler

variable {n : Nat}

/-! ### batchGetHashes as a fan-in -/

/-- `checkAndCommit` of the handler has run. -/
def HashStage.done : HashStage → Bool
  | checked _ => true
  | _ => false

namespace GetHashes

variable {number : BlockNumber} {root : Fin n → Except Error H256} {s s' : GetHashes n} {a : Act n}

/-- The counters count the replies. -/
def Counted (s : GetHashes n) : Prop := s.status.Counts fun i => (s.stage i).reply

/-- The fan-in behind `batchGetHashes`. -/
def view (s : GetHashes n) : FanIn (Fin n) where
  reply := fun i => (s.stage i).reply
  checked := fun i => (s.stage i).done
  calls := s.answers.map fun answer => !answer.isOk

/-- Moving handler `i` from one stage to another before its check. -/
theorem done_update_of_eq {i : Fin n} {st : HashStage} (h : (s.stage i).done = st.done) :
    (fun j => (Function.update s.stage i st j).done) = fun j => (s.stage j).done := by
  funext j
  by_cases hj : j = i
  · subst hj
    simp [h]
  · simp [hj]

/-- The check of handler `i`. -/
theorem done_update {i : Fin n} {ok : Bool} :
    (fun j => (Function.update s.stage i (.checked ok) j).done)
      = Function.update (fun j => (s.stage j).done) i true := by
  funext j
  by_cases hj : j = i
  · subst hj
    simp [HashStage.done]
  · simp [hj]

theorem Counted.init : Counted ({} : GetHashes n) := by
  have h := CommitStatus.Counts.init (P := Fin n)
  rwa [Fintype.card_fin] at h

theorem Step.counted (hstep : Step number root s a s') (h : s.Counted) : s'.Counted := by
  cases hstep with
  | @count i hi =>
      have hnone : (s.stage i).reply = none := by rw [hi]; rfl
      rcases hr : root i with e | hash
      · show CommitStatus.Counts _ fun j => (Function.update s.stage i .failed j).reply
        rw [reply_update (b := false) rfl]
        exact CommitStatus.Counts.count h hnone false
      · show CommitStatus.Counts _ fun j => (Function.update s.stage i (.counted hash) j).reply
        rw [reply_update (b := true) rfl]
        exact CommitStatus.Counts.count h hnone true
  | @xor i hash hi =>
      show CommitStatus.Counts _ fun j => (Function.update s.stage i (.xored hash) j).reply
      rw [reply_update_of_eq (by rw [hi]; rfl)]
      exact h
  | @checkGood i hash hi =>
      show CommitStatus.Counts _ fun j => (Function.update s.stage i (.checked true) j).reply
      rw [reply_update_of_eq (by rw [hi]; rfl)]
      exact h
  | @checkFailed i hi =>
      show CommitStatus.Counts _ fun j => (Function.update s.stage i (.checked false) j).reply
      rw [reply_update_of_eq (by rw [hi]; rfl)]
      exact h

/-- A check, as a step of the fan-in. -/
theorem checkAndCommit_view (h : s.Counted) {i : Fin n} {ok : Bool}
    (hreply : (s.stage i).reply = some ok) (hnot : (s.stage i).done = false) :
    FanIn.Step (fun _ => true) s.view (s.checkAndCommit number i ok).view := by
  have hne : s.view.reply i ≠ none := by
    show (s.stage i).reply ≠ none
    rw [hreply]
    exact Option.some_ne_none ok
  have hview : (s.checkAndCommit number i ok).view =
      { s.view with
          checked := Function.update s.view.checked i true
          calls := s.view.calls ++ (s.decision number).map fun answer => !answer.isOk } := by
    simp only [view, GetHashes.checkAndCommit, done_update, List.map_append]
    rw [reply_update_of_eq (by rw [hreply]; rfl)]
  rw [hview]
  by_cases hfull : s.status.full = true
  · have hfailed := h.failed_pos_iff
    unfold decision
    rw [if_pos hfull]
    split_ifs with hpos
    · exact .checkFull i true rfl hne hnot (h.full_iff.mp hfull)
        (iff_of_true rfl (hfailed.mp hpos))
    · exact .checkFull i false rfl hne hnot (h.full_iff.mp hfull)
        (iff_of_false Bool.false_ne_true fun hbad => hpos (hfailed.mpr hbad))
  · unfold decision
    rw [if_neg hfull, List.map_nil, List.append_nil]
    exact .checkEarly i rfl hne hnot fun hall => hfull (h.full_iff.mpr hall)

theorem Step.view (hstep : Step number root s a s') (h : s.Counted) :
    s'.view = s.view ∨ FanIn.Step (fun _ => true) s.view s'.view := by
  cases hstep with
  | @count i hi =>
      right
      have hnone : s.view.reply i = none := by
        show (s.stage i).reply = none
        rw [hi]
        rfl
      have hcount : ∀ st ok, HashStage.reply st = some ok → st.done = false →
          FanIn.Step (fun _ => true) s.view
            { s.view with
                reply := fun j => (Function.update s.stage i st j).reply
                checked := fun j => (Function.update s.stage i st j).done } := by
        intro st ok hreply hdone
        rw [reply_update hreply, done_update_of_eq (by rw [hi, hdone]; rfl)]
        exact .count i ok hnone fun _ q hq => absurd hq Bool.noConfusion
      rcases hr : root i with e | hash
      · exact hcount .failed false rfl rfl
      · exact hcount (.counted hash) true rfl rfl
  | @xor i hash hi =>
      left
      simp only [GetHashes.view, GetHashes.xorHash]
      rw [reply_update_of_eq (by rw [hi]; rfl), done_update_of_eq (by rw [hi]; rfl)]
  | @checkGood i hash hi =>
      exact Or.inr (checkAndCommit_view h (by rw [hi]; rfl) (by rw [hi]; rfl))
  | @checkFailed i hi =>
      exact Or.inr (checkAndCommit_view h (by rw [hi]; rfl) (by rw [hi]; rfl))

end GetHashes

/-! ### asyncExecute with its collections -/

/-- `asyncExecute` when the map is filled, with the handlers of both
collections.  The answers of `batchNextBlock` are those of `nextBlock`, the
answers of `batchGetHashes` those of `hashes`. -/
structure CollectedExecution (n : Nat) where
  nextBlock : Collector (Fin n) := batchNextBlock n
  execution : Execution
  hashes : GetHashes n := {}
  restarted : Bool := false

/-- Executors that answer messages so, and no answer of `batchGetHashes`. -/
def messagesBy (reply : List (List ExecutionMessage) → ExecutionMessage → Reply → Prop) :
    Executors := ⟨reply, fun _ _ => False⟩

/-- Executors that answer messages so; `batchGetHashes` may answer anything. -/
def anyHashBy (reply : List (List ExecutionMessage) → ExecutionMessage → Reply → Prop) :
    Executors := ⟨reply, fun _ _ => True⟩

namespace CollectedExecution

variable (env : ExecuteEnv) (block : Block)

/-- `asyncExecute` when the map is filled. -/
def start (n : Nat) : CollectedExecution n where
  execution := Execution.start env block

/-- The continuation of `batchNextBlock`. -/
def afterNextBlock (c : CollectedExecution n) (error : Option Error) : CollectedExecution n :=
  if c.execution.nextBlock = true ∨ error.isSome = true then
    { c with execution := c.execution.afterNextBlock env block error }
  else { c with restarted := true }

/-- A step of a handler of `batchNextBlock`, with the calls it makes. -/
def collectNextBlock (c : CollectedExecution n) (s : Collector (Fin n)) : CollectedExecution n :=
  (s.callbacks.drop c.nextBlock.callbacks.length).foldl (afterNextBlock env block)
    { c with nextBlock := s }

/-- A step of a handler of `batchGetHashes`, with the calls it makes. -/
def collectHashes (c : CollectedExecution n) (m : Machine) (s : GetHashes n) :
    CollectedExecution n :=
  { c with
    hashes := s
    execution := { c.execution with
      dmts := [(s.answers.drop c.hashes.answers.length).foldl
        (Machine.hashDone (env.blockEnv block)) m] } }

variable (reply : List (List ExecutionMessage) → ExecutionMessage → Reply → Prop)

/-- One step of `asyncExecute`, or of a handler of its collections.  Every
executor may answer anything when it is asked for its hash. -/
inductive Step : CollectedExecution n → CollectedExecution n → Prop
  | nextBlock {c : CollectedExecution n} {s : Collector (Fin n)} : c.restarted = false →
      env.staticCall = false → NextBlockStep block.number c.nextBlock s →
      Step c (c.collectNextBlock env block s)
  | execution {c : CollectedExecution n} {x : Execution} : c.restarted = false →
      x.nextBlock = c.execution.nextBlock →
      Execution.Step env block (messagesBy reply) c.execution x →
      Step c { c with execution := x }
  | hashes {c : CollectedExecution n} {m : Machine} {root : Fin n → Except Error H256}
      {a : GetHashes.Act n} {s : GetHashes n} : c.restarted = false → c.execution.dmts = [m] →
      (m.phase = .hashing ∨ c.hashes.answers ≠ []) →
      GetHashes.Step block.number root c.hashes a s → Step c (c.collectHashes env block m s)

/-- Any number of steps. -/
def Steps : CollectedExecution n → CollectedExecution n → Prop :=
  Relation.ReflTransGen (Step env block reply)

/-- If the step counts the last reply of a collection, no other handler of it is
between its count and its check. -/
def Alone (c c' : CollectedExecution n) : Prop :=
  FanIn.Alone (fun _ => true) c.nextBlock.view c'.nextBlock.view ∧
    FanIn.Alone (fun _ => true) c.hashes.view c'.hashes.view

/-- Steps whose last handlers are alone. -/
def CleanSteps : CollectedExecution n → CollectedExecution n → Prop :=
  Relation.ReflTransGen fun c c' => Step env block reply c c' ∧ c.Alone c'

variable {env : ExecuteEnv} {block : Block}
variable {reply : List (List ExecutionMessage) → ExecutionMessage → Reply → Prop}
variable {c c' : CollectedExecution n}

/-! ### The collections of a run -/

@[simp] theorem afterNextBlock_nextBlock (c : CollectedExecution n) (error : Option Error) :
    (c.afterNextBlock env block error).nextBlock = c.nextBlock := by
  unfold CollectedExecution.afterNextBlock
  split_ifs <;> rfl

@[simp] theorem afterNextBlock_hashes (c : CollectedExecution n) (error : Option Error) :
    (c.afterNextBlock env block error).hashes = c.hashes := by
  unfold CollectedExecution.afterNextBlock
  split_ifs <;> rfl

theorem collectNextBlock_collections (env : ExecuteEnv) (block : Block)
    (c : CollectedExecution n) (s : Collector (Fin n)) :
    (c.collectNextBlock env block s).nextBlock = s ∧
      (c.collectNextBlock env block s).hashes = c.hashes := by
  have hfold : ∀ (callbacks : List (Option Error)) (c : CollectedExecution n),
      (callbacks.foldl (afterNextBlock env block) c).nextBlock = c.nextBlock ∧
        (callbacks.foldl (afterNextBlock env block) c).hashes = c.hashes := by
    intro callbacks
    induction callbacks with
    | nil => exact fun c => ⟨rfl, rfl⟩
    | cons error rest ih =>
        intro c
        rw [List.foldl_cons, (ih _).1, (ih _).2]
        exact ⟨afterNextBlock_nextBlock c error, afterNextBlock_hashes c error⟩
  exact hfold _ _

/-- The counters of both collections are right. -/
structure Counted (c : CollectedExecution n) : Prop where
  nextBlock : Collector.Inv (fun _ => true) c.nextBlock
  hashes : c.hashes.Counted

theorem Counted.start : (start env block n).Counted where
  nextBlock := by
    have hcounts := CommitStatus.Counts.init (P := Fin n)
    rw [Fintype.card_fin] at hcounts
    exact ⟨hcounts, fun p hp => Bool.noConfusion hp⟩
  hashes := .init

theorem Step.counted (hstep : Step env block reply c c') (h : c.Counted) : c'.Counted := by
  cases hstep with
  | nextBlock _ _ hs =>
      obtain ⟨hnext, hhashes⟩ := collectNextBlock_collections env block c _
      exact ⟨hnext ▸ Collector.Step.inv hs h.nextBlock, hhashes ▸ h.hashes⟩
  | execution _ _ _ => exact ⟨h.nextBlock, h.hashes⟩
  | hashes _ _ _ hs => exact ⟨h.nextBlock, hs.counted h.hashes⟩

theorem Step.nextBlock_view (hstep : Step env block reply c c') (h : c.Counted) :
    c'.nextBlock.view = c.nextBlock.view ∨
      FanIn.Step (fun _ => true) c.nextBlock.view c'.nextBlock.view := by
  cases hstep with
  | nextBlock _ _ hs =>
      rw [(collectNextBlock_collections env block c _).1]
      exact Collector.Step.view hs h.nextBlock
  | execution _ _ _ => exact Or.inl rfl
  | hashes _ _ _ hs => exact Or.inl rfl

theorem Step.hashes_view (hstep : Step env block reply c c') (h : c.Counted) :
    c'.hashes.view = c.hashes.view ∨
      FanIn.Step (fun _ => true) c.hashes.view c'.hashes.view := by
  cases hstep with
  | nextBlock _ _ hs =>
      left
      rw [(collectNextBlock_collections env block c _).2]
  | execution _ _ _ => exact Or.inl rfl
  | hashes _ _ _ hs => exact hs.view h.hashes

/-- **Both collections answer once** if their last handlers are alone, and only
then. -/
theorem collections_onceIfAlone [NeZero n] (env : ExecuteEnv) (block : Block)
    (reply : List (List ExecutionMessage) → ExecutionMessage → Reply → Prop) :
    FanIn.OnceIfAlone (fun _ => true) (Step env block reply) (start env block n)
      (fun c => c.nextBlock.view) ∧
    FanIn.OnceIfAlone (fun _ => true) (Step env block reply) (start env block n)
      (fun c => c.hashes.view) := by
  have hstep : ∀ c c' : CollectedExecution n, c.Counted → Step env block reply c c' →
      c'.Counted := fun c c' h hstep => hstep.counted h
  constructor
  · exact FanIn.once_of_simulates ⟨0, rfl⟩ .start hstep
      (fun c c' h hstep => hstep.nextBlock_view h) rfl
  · exact FanIn.once_of_simulates ⟨0, rfl⟩ .start hstep
      (fun c c' h hstep => hstep.hashes_view h) rfl

/-- Without executors nobody replies. -/
theorem Step.of_no_executors {c c' : CollectedExecution 0} (hstep : Step env block reply c c') :
    c'.nextBlock = c.nextBlock ∧ c'.hashes = c.hashes := by
  cases hstep with
  | nextBlock _ _ hs =>
      cases hs with
      | ask p _ _ => exact p.elim0
      | count p _ _ _ => exact p.elim0
      | check p _ _ _ => exact p.elim0
  | execution _ _ _ => exact ⟨rfl, rfl⟩
  | hashes _ _ _ hs =>
      cases hs with
      | @count i _ => exact i.elim0
      | @xor i _ _ => exact i.elim0
      | @checkGood i _ _ => exact i.elim0
      | @checkFailed i _ => exact i.elim0

/-- In a clean run each collection has answered at most once. -/
theorem CleanSteps.once (h : CleanSteps env block reply (start env block n) c) :
    c.nextBlock.callbacks.length ≤ 1 ∧ c.hashes.answers.length ≤ 1 := by
  rcases n with _ | n
  · have hnone : c.nextBlock = (start env block 0).nextBlock ∧
        c.hashes = (start env block 0).hashes := by
      induction h with
      | refl => exact ⟨rfl, rfl⟩
      | tail _ hstep ih =>
          obtain ⟨hnext, hhashes⟩ := hstep.1.of_no_executors
          exact ⟨hnext.trans ih.1, hhashes.trans ih.2⟩
    rw [hnone.1, hnone.2]
    exact ⟨Nat.zero_le 1, Nat.zero_le 1⟩
  · obtain ⟨hnext, hhashes⟩ := collections_onceIfAlone (n := n + 1) env block reply
    have hnextOnce := hnext.once c
      (Relation.ReflTransGen.mono (fun _ _ hstep => ⟨hstep.1, hstep.2.1⟩) _ _ h)
    have hhashesOnce := hhashes.once c
      (Relation.ReflTransGen.mono (fun _ _ hstep => ⟨hstep.1, hstep.2.2⟩) _ _ h)
    simp only [Collector.view, GetHashes.view, List.length_map] at hnextOnce hhashesOnce
    exact ⟨hnextOnce.1, hhashesOnce.1⟩

/-! ### Clean runs are runs of `Execution` -/

/-- What a clean run keeps: nothing was started twice, `asyncExecute` has made
steps of `Execution`, and it waits for `batchNextBlock` until that has answered. -/
structure Followed (env : ExecuteEnv) (block : Block)
    (reply : List (List ExecutionMessage) → ExecutionMessage → Reply → Prop)
    (c : CollectedExecution n) : Prop where
  once : c.restarted = false
  steps : Execution.Steps env block (anyHashBy reply) (Execution.start env block) c.execution
  waits : env.staticCall = false → c.nextBlock.callbacks = [] → c.execution.nextBlock = true

theorem Followed.start : Followed env block reply (start env block n) where
  once := rfl
  steps := .refl
  waits := by
    intro hstatic _
    simp [CollectedExecution.start, Execution.start, hstatic]

/-- What a collection adds to its answers while there is at most one of them. -/
theorem drop_cases {α : Type*} {before after : List α} (hone : after.length ≤ 1) :
    after.drop before.length = [] ∨
      before = [] ∧ ∃ answer, after = [answer] := by
  rcases before with _ | ⟨b, rest⟩
  · rcases after with _ | ⟨answer, _ | ⟨second, more⟩⟩
    · exact Or.inl rfl
    · exact Or.inr ⟨rfl, answer, rfl⟩
    · simp at hone
  · left
    apply List.drop_eq_nil_of_le
    rw [List.length_cons]
    omega

theorem Followed.nextBlock (h : Followed env block reply c) (hstatic : env.staticCall = false)
    {s : Collector (Fin n)} (hone : s.callbacks.length ≤ 1)
    (hkeep : s.callbacks = [] → c.nextBlock.callbacks = []) :
    Followed env block reply (c.collectNextBlock env block s) := by
  unfold collectNextBlock
  rcases drop_cases hone with hnil | ⟨hbefore, error, hafter⟩
  · rw [hnil]
    exact ⟨h.once, h.steps, fun hs hempty => h.waits hs (hkeep hempty)⟩
  · have hwaits := h.waits hstatic hbefore
    rw [hbefore, hafter]
    simp only [List.length_nil, List.drop_zero, List.foldl_cons, List.foldl_nil,
      CollectedExecution.afterNextBlock]
    rw [if_pos (Or.inl hwaits)]
    refine ⟨h.once, h.steps.tail (.nextBlock hwaits), fun _ hempty => ?_⟩
    rw [hafter] at hempty
    cases hempty

theorem Followed.hashes (h : Followed env block reply c) {m : Machine}
    (hdmts : c.execution.dmts = [m])
    (hasked : m.phase = .hashing ∨ c.hashes.answers ≠ []) {s : GetHashes n}
    (hone : s.answers.length ≤ 1) :
    Followed env block reply (c.collectHashes env block m s) := by
  refine ⟨h.once, ?_, h.waits⟩
  unfold collectHashes
  rcases drop_cases hone with hnil | ⟨hbefore, answer, hafter⟩
  · rw [hnil, List.foldl_nil, ← hdmts]
    exact h.steps
  · have hphase : m.phase = .hashing := hasked.resolve_right (absurd hbefore)
    rw [hbefore, hafter]
    exact h.steps.tail (@Execution.Step.dmt env block _ _ [] [] m _ hdmts (.hash hphase trivial))

/-- A handler of `batchGetHashes` makes a step and does not answer. -/
theorem Step.collect {m : Machine} {root : Fin n → Except Error H256} {a : GetHashes.Act n}
    {s : GetHashes n} (hrestarted : c.restarted = false) (hdmts : c.execution.dmts = [m])
    (hphase : m.phase = .hashing) (hstep : GetHashes.Step block.number root c.hashes a s)
    (hempty : s.answers = []) : Step env block reply c { c with hashes := s } := by
  have heq : c.collectHashes env block m s = { c with hashes := s } := by
    simp only [collectHashes, hempty, List.drop_nil, List.foldl_nil, ← hdmts]
  rw [← heq]
  exact .hashes hrestarted hdmts (Or.inl hphase) hstep

/-- A handler of `batchGetHashes` makes a step and answers. -/
theorem Step.answer {m : Machine} {root : Fin n → Except Error H256} {a : GetHashes.Act n}
    {s : GetHashes n} {hash : Except Error H256} (hrestarted : c.restarted = false)
    (hdmts : c.execution.dmts = [m]) (hasked : m.phase = .hashing ∨ c.hashes.answers ≠ [])
    (hstep : GetHashes.Step block.number root c.hashes a s)
    (hanswers : s.answers = c.hashes.answers ++ [hash]) :
    Step env block reply c { c with
      hashes := s
      execution := { c.execution with dmts := [m.hashDone (env.blockEnv block) hash] } } := by
  have heq : c.collectHashes env block m s = { c with
      hashes := s
      execution := { c.execution with dmts := [m.hashDone (env.blockEnv block) hash] } } := by
    simp only [collectHashes, hanswers, List.drop_left, List.foldl_cons, List.foldl_nil]
  rw [← heq]
  exact .hashes hrestarted hdmts hasked hstep

end CollectedExecution

end BcosScheduler
