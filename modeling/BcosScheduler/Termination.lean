/-
BcosScheduler/Termination.lean

`DMTExecute` always comes to its end.

With executors that answer and run out of gas, every step of the machine that
changes anything lowers a measure: the batches that can still come, and within a
batch the nodes ahead, the messages without reply and whether everything is
sent (`remaining`).  Until it ends some step is possible, since
whoever completes the batch is never missing (`Explained.exists_moves`).  So the
end is reached on every run; with executors that keep to the lock protocol and
never fail it is the callback with success (`inevitable_completed`).
-/
import BcosScheduler.Budget
import BcosScheduler.FailingReply
import BcosScheduler.Receipts
import BcosScheduler.Lib.Inevitable

namespace BcosScheduler

/-- Every message and every question for the state root is answered. -/
structure Executors.Answers (executors : Executors) : Prop where
  reply : ∀ before message, ∃ r, executors.reply before message r
  hash : ∀ before, ∃ answer, executors.hash before answer

namespace Machine

/-- A step that changes something: not a check that comes too early, nor a second
`allSended`. -/
def Moves (env : BlockEnv) (staticCall : Bool) (executors : Executors) (m m' : Machine) : Prop :=
  Step env staticCall executors m m' ∧ m' ≠ m

/-- What is left to do in a batch. -/
def remaining (m : Machine) : Nat :=
  match m.phase with
  | .batching => 2 * m.todo.length + (m.log.dispatched.length - m.replied.length)
      + (if m.log.status.allSended then 0 else 1) + 2
  | .hashing => 1
  | .finished _ => 0

/-- `DMTExecute` has called back, or was left by an exception or a failed assertion. -/
def Ended (m : Machine) : Prop := ∃ outcome, m.phase = .finished outcome

/-- `DMTExecute` has called back, with an error or with success. -/
def CalledBack (m : Machine) : Prop :=
  ∃ outcome, m.phase = .finished outcome ∧ ∀ f, outcome ≠ .fault f

/-- `DMTExecute` was left by the exception of `batchAcquireKeyLock`. -/
def Thrown (m : Machine) : Prop := ∃ e, m.phase = .finished (.fault (.exception e))

/-- The addresses that were assigned in the batches so far are new. -/
def Fresh (m : Machine) : Prop :=
  (∀ b ∈ m.history, FreshAddresses b.dispatched) ∧ FreshAddresses m.log.dispatched

end Machine

variable {env : BlockEnv} {executors : Executors} {staticCall : Bool} {states₀ states : List Node}
  {ctx₀ ctx : SendContext} {m m' : Machine} {n : Node} {rest : List Node} {limit base : Nat}

/-! ### Every step lowers the measure -/

namespace Machine

/-- A new batch was begun, or less is left of this one. -/
def Lowers (m m' : Machine) : Prop :=
  m'.history.length = m.history.length + 1 ∨ m'.history = m.history ∧ m'.remaining < m.remaining

theorem Lowers.ne (h : Lowers m m') : m' ≠ m := by
  rintro rfl
  rcases h with h | ⟨-, h⟩
  · omega
  · exact lt_irrefl _ h

theorem remaining_batching (h : m.phase = .batching) :
    m.remaining = 2 * m.todo.length + (m.log.dispatched.length - m.replied.length)
      + (if m.log.status.allSended then 0 else 1) + 2 := by
  simp [remaining, h]

theorem lowers_of_finished {outcome : Outcome} (hphase : m.phase = .batching)
    (hend : m'.phase = .finished outcome) (hhistory : m'.history = m.history) : m.Lowers m' := by
  refine Or.inr ⟨hhistory, ?_⟩
  rw [remaining_batching hphase, remaining, hend]
  simp

theorem lowers_visit (env : BlockEnv) (hphase : m.phase = .batching) (htodo : m.todo = n :: rest) :
    m.Lowers (m.visit env n rest) := by
  rcases ht : traverseStep (sendCallback env) n rest m.log m.cursor with f | ⟨log, c, rest'⟩
  · have heq : m.visit env n rest = { m with phase := .finished (.fault f) } := by
      simp only [visit, ht]
    rw [heq]
    exact lowers_of_finished hphase rfl rfl
  · have heq : m.visit env n rest = { m with todo := rest', cursor := c, log := log } := by
      simp only [visit, ht]
    rw [heq]
    refine Or.inr ⟨rfl, ?_⟩
    -- a node less ahead makes up for a message more without reply
    obtain ⟨⟨new, hnew⟩, -, -, hall⟩ := sendStep_effect ht
    have hdisp : log.dispatched.length ≤ m.log.dispatched.length + 1 := by
      rw [hnew, List.length_append]
      cases new <;> simp
    have hrest : rest'.length ≤ rest.length := by
      rcases traverseStep_rest ht with rfl | rfl <;> simp
    rw [remaining_batching hphase, htodo, List.length_cons]
    show remaining { m with todo := rest', cursor := c, log := log } < _
    rw [remaining_batching (m := { m with todo := rest', cursor := c, log := log }) hphase]
    rcases hall with hall | ⟨rfl, hall⟩
    · simp only [hall]
      omega
    · simp only [hall, List.length_nil]
      split_ifs <;> omega

theorem lowers_setAllSended (hphase : m.phase = .batching)
    (hall : m.log.status.allSended = false) : m.Lowers m.setAllSended := by
  refine Or.inr ⟨rfl, ?_⟩
  rw [remaining_batching hphase, remaining_batching (m := m.setAllSended) hphase]
  simp [setAllSended, hall]

/-- The check does nothing, or ends the batch. -/
theorem checkBatch_lowers (staticCall : Bool) (hphase : m.phase = .batching) :
    m.checkBatch staticCall = m ∨ m.Lowers (m.checkBatch staticCall) := by
  unfold checkBatch
  split_ifs
  · refine Or.inr ?_
    rcases endBatch m.log.status m.states m.log.ctx.keyLocks with
      e | f | ⟨states, keyLocks, victims⟩
    · exact lowers_of_finished hphase rfl rfl
    · exact lowers_of_finished hphase rfl rfl
    · left
      simp only [afterBatch, finish]
      split_ifs <;> simp [startBatch]
  · exact Or.inl rfl

/-- A complete batch is ended by the next check. -/
theorem lowers_checkBatch (staticCall : Bool) (hphase : m.phase = .batching)
    (hall : m.log.status.allSended = true) (hreceived : m.log.status.received = m.log.status.total)
    (hcalled : m.log.status.callbackExecuted = false) : m.Lowers (m.checkBatch staticCall) := by
  rcases checkBatch_lowers staticCall hphase with heq | hlowers
  · -- whatever a completed batch leads to has another phase or another history
    exfalso
    unfold checkBatch at heq
    rw [if_pos ⟨hall, hreceived, hcalled⟩] at heq
    rcases hend : endBatch m.log.status m.states m.log.ctx.keyLocks with
      e | f | ⟨states, keyLocks, victims⟩
    · rw [hend] at heq
      have := congrArg Machine.phase heq
      simp [afterBatch, hphase] at this
    · rw [hend] at heq
      have := congrArg Machine.phase heq
      simp [afterBatch, hphase] at this
    · rw [hend] at heq
      have hlen := congrArg (fun k => k.history.length) heq
      simp only [afterBatch, finish] at hlen
      split_ifs at hlen <;> simp [startBatch] at hlen
  · exact hlowers

end Machine

/-- More messages than replies, as long as one is without reply. -/
theorem Mid.replied_lt (hm : Mid env executors states ctx m) {d : Dispatch}
    (hd : d ∈ m.log.dispatched) (hnew : d.contextID ∉ m.replied.map Prod.fst) :
    m.replied.length < m.log.dispatched.length := by
  have hsub : d.contextID :: m.replied.map Prod.fst ⊆ m.log.dispatched.map Dispatch.contextID := by
    intro i hi
    rcases List.mem_cons.mp hi with rfl | hi
    · exact List.mem_map.mpr ⟨d, hd, rfl⟩
    · obtain ⟨p, hp, rfl⟩ := List.mem_map.mp hi
      obtain ⟨d', hd', hctx, -⟩ := hm.replies p hp
      exact List.mem_map.mpr ⟨d', hd', hctx⟩
  have hle := (List.subperm_of_subset (List.nodup_cons.mpr ⟨hnew, hm.repliedNodup⟩) hsub).length_le
  simpa [Nat.succ_le_iff] using hle

/-- A reply is one less to wait for; the check after it may end the batch. -/
theorem Mid.lowers_reply (hm : Mid env executors states ctx m) (hphase : m.phase = .batching)
    {d : Dispatch} (hd : d ∈ m.log.dispatched) (hnew : d.contextID ∉ m.replied.map Prod.fst)
    (r : Reply) : m.Lowers ((m.receive d.contextID r).checkBatch staticCall) := by
  have hlt := hm.replied_lt hd hnew
  have hreceive : (m.receive d.contextID r).remaining < m.remaining := by
    rw [Machine.remaining_batching hphase,
      Machine.remaining_batching (m := m.receive d.contextID r) hphase]
    show 2 * (m.todo.map _).length + (m.log.dispatched.length - (m.replied ++ [_]).length)
      + (if m.log.status.allSended = true then 0 else 1) + 2 < _
    rw [List.length_map, List.length_append, List.length_singleton]
    omega
  rcases Machine.checkBatch_lowers (m := m.receive d.contextID r) staticCall hphase with
    heq | hnext | ⟨hhistory, hless⟩
  · rw [heq]
    exact Or.inr ⟨rfl, hreceive⟩
  · exact Or.inl hnext
  · exact Or.inr ⟨hhistory, hless.trans hreceive⟩

/-- **Steps lower the measure**, or change nothing. -/
theorem Step.lowers (hstep : Machine.Step env staticCall executors m m')
    (h : Explained env executors staticCall states₀ ctx₀ m) : m' = m ∨ m.Lowers m' := by
  cases hstep with
  | visit hphase htodo => exact Or.inr (Machine.lowers_visit env hphase htodo)
  | allSended hphase htodo =>
      rcases hall : m.log.status.allSended with _ | _
      · exact Or.inr (Machine.lowers_setAllSended hphase hall)
      · refine Or.inl ?_
        rw [Machine.setAllSended, ← hall]
  | check hphase htodo hall => exact Machine.checkBatch_lowers staticCall hphase
  | @reply d r hphase hmem hnew hr =>
      obtain ⟨states, ctx, -, -, hm⟩ := h.batching hphase
      exact Or.inr (hm.lowers_reply hphase hmem hnew r)
  | @hash answer hphase hanswer =>
      refine Or.inr (Or.inr ?_)
      cases answer <;> simp [Machine.hashDone, Machine.remaining, hphase]

/-! ### Until the end there is a step -/

theorem Explained.exists_moves (hd : DistinctContexts states₀) (hanswers : executors.Answers)
    (h : Explained env executors staticCall states₀ ctx₀ m) (hopen : ¬ m.Ended) :
    ∃ m', Machine.Moves env staticCall executors m m' := by
  rcases hphase : m.phase with _ | _ | outcome
  · obtain ⟨states, ctx, hreach, -, hm⟩ := h.batching hphase
    rcases htodo : m.todo with _ | ⟨n, rest⟩
    · rcases hall : m.log.status.allSended with _ | _
      · exact ⟨_, .allSended hphase htodo, (Machine.lowers_setAllSended hphase hall).ne⟩
      · by_cases hreplied : m.AllReplied
        · -- everything is there, so the next check completes the batch
          obtain ⟨hcount, hcalled⟩ := hm.counted (hreach.distinct hd) hreplied
          exact ⟨_, .check hphase htodo hall,
            (Machine.lowers_checkBatch staticCall hphase hall hcount hcalled).ne⟩
        · simp only [Machine.AllReplied, not_forall] at hreplied
          obtain ⟨d, hmem, hnew⟩ := hreplied
          obtain ⟨r, hr⟩ := hanswers.reply m.sentBefore d.message
          exact ⟨_, .reply hphase hmem hnew hr, (hm.lowers_reply hphase hmem hnew r).ne⟩
    · exact ⟨_, .visit hphase htodo, (Machine.lowers_visit env hphase htodo).ne⟩
  · obtain ⟨answer, hanswer⟩ := hanswers.hash m.sentBefore
    refine ⟨_, .hash hphase hanswer, fun heq => ?_⟩
    have := congrArg Machine.phase heq
    cases answer <;> simp [Machine.hashDone, hphase] at this
  · exact absurd ⟨outcome, hphase⟩ hopen

/-! ### Whole runs -/

/-- From every state on its way, `DMTExecute` on a map without locks of frames that are
gone comes to its end. -/
theorem inevitable_ended (hd : DistinctContexts states₀) (h₀ : FrameState states₀ ctx₀.keyLocks)
    (hkeeps : executors.KeepsFrame) (hsettles : executors.Settles limit)
    (hbase : ∀ n ∈ states₀, n.2.callStack.length ≤ base) (hanswers : executors.Answers)
    (hm : Machine.Steps env staticCall executors (Machine.startBatch states₀ ctx₀ []) m) :
    Inevitable (Machine.Moves env staticCall executors) Machine.Ended m := by
  let batches := 2 * messageBound states₀.length limit base + 1
  apply Inevitable.of_measure
    (fun m => (toLex (batches - m.history.length, m.remaining) : ℕ ×ₗ ℕ))
    (I := Machine.Steps env staticCall executors (Machine.startBatch states₀ ctx₀ []))
  · rintro m m' hrun ⟨hstep, hne⟩
    have hrun' := hrun.tail hstep
    refine Or.inr ⟨hrun', Prod.Lex.toLex_lt_toLex.mpr ?_⟩
    obtain ⟨_, _, hreach⟩ := (Steps.explained hd hrun').reaches
    have hle := (hreach.length_le hd h₀ hkeeps hsettles hbase).2
    rcases Step.lowers hstep (Steps.explained hd hrun) with heq | hnext | ⟨hhistory, hlt⟩
    · exact absurd heq hne
    · exact Or.inl (by omega)
    · exact Or.inr ⟨by rw [hhistory], hlt⟩
  · exact fun m hrun hopen => (Steps.explained hd hrun).exists_moves hd hanswers hopen
  · exact hm

/-- What was sent for a context in the whole run. -/
def Machine.timesSent (m : Machine) (c : ContextID) : Nat :=
  BcosScheduler.timesSent m.sentBefore c + m.log.sentTo.count c

theorem Explained.timesSent_le (h : Explained env executors staticCall states₀ ctx₀ m)
    (hd : DistinctContexts states₀) (h₀ : FrameState states₀ ctx₀.keyLocks)
    (hkeeps : executors.KeepsFrame) (hsettles : executors.Settles limit)
    (hbase : ∀ n ∈ states₀, n.2.callStack.length ≤ base) (c : ContextID) :
    m.timesSent c ≤ 2 * limit + 1 + base := by
  obtain ⟨states, ctx, log, cursor, todo, hreach, hsend, -, hdisp⟩ := h.stop
  obtain ⟨hnodes, hbound⟩ := hreach.budgeted hd h₀ hkeeps hsettles hbase
  have hbudget := hsend.budgetInv (hreach.distinct hd) (hreach.frameState hd h₀ hkeeps) hnodes hbound
  have hle := hbudget.bound c
  rw [Machine.timesSent, SendLog.sentTo, hdisp]
  exact hle

/-- With executors that keep to the lock protocol and fresh addresses nothing throws. -/
theorem Explained.no_fault (h : Explained env executors staticCall states₀ ctx₀ m)
    (hd : DistinctContexts states₀) (h₀ : FrameState states₀ ctx₀.keyLocks)
    (hguard₀ : GuardedNodes ctx₀.keyLocks.table states₀) (hkeeps : executors.KeepsFrame)
    (hcontract : executors.KeepsContract) (hfresh : m.Fresh) (f : Fault) :
    m.phase ≠ .finished (.fault f) := by
  intro hphase
  unfold Explained at h
  rw [hphase] at h
  obtain ⟨-, states, ctx, log, hreach, -, -, hdisp, hfault⟩ := h
  have hdist := hreach.distinct hd
  have hstate := hreach.frameState hd h₀ hkeeps
  rcases hfault with ⟨c, n, rest, hsend, herr⟩ | ⟨c, rs, hsend, hans, hround⟩
  · obtain ⟨r, hok⟩ := (hsend.frameInv hdist hstate).visit_ok env
    rw [hok] at herr
    cases herr
  · have hguard := hreach.guarded hd h₀ hguard₀ hkeeps hcontract hfresh.1
    rcases hguard.round hdist hstate hkeeps hcontract hsend hans (hdisp ▸ hfresh.2) with
      ⟨e, heq⟩ | ⟨states', keyLocks, victims, heq, -⟩
    · rw [heq] at hround
      cases hround
    · rw [heq] at hround
      cases hround

/-- The callback was called, or `batchAcquireKeyLock` has thrown; the latter takes
executors that do not keep to the lock protocol, or an address that is not new. -/
def Machine.EndedBy (executors : Executors) (m : Machine) : Prop :=
  m.CalledBack ∨ m.Thrown ∧ ¬ (executors.KeepsContract ∧ m.Fresh)

theorem Machine.Ended.endedBy {env : ExecuteEnv} {block : Block} (hended : m.Ended)
    (hkeeps : executors.KeepsFrame) (hstart : env.startContextID = 0)
    (hm : Machine.Steps (env.blockEnv block) env.staticCall executors (dmtStart env block) m) :
    m.EndedBy executors := by
  have hd := distinct_blockStates env block
  have hexp := Steps.explained hd hm
  obtain ⟨outcome, hphase⟩ := hended
  by_cases hfault : ∃ f, outcome = .fault f
  · obtain ⟨f, rfl⟩ := hfault
    obtain ⟨e, rfl⟩ := (hexp.messages hd (visitable_blockStates env block)).1 f hphase
    refine Or.inr ⟨⟨e, hphase⟩, fun ⟨hcontract, hfresh⟩ => ?_⟩
    exact hexp.no_fault hd (frameState_blockStates hstart block)
      (guardedNodes_blockStates env block _) hkeeps hcontract hfresh _ hphase
  · exact Or.inl ⟨outcome, hphase, fun f heq => hfault ⟨f, heq⟩⟩

/-- **`DMTExecute` always comes to its end.**  With executors that answer every message, keep
context and sequence number, and let frames only return once `limit` messages of their
transaction were sent: no run of a block without DAG transactions goes on for ever or gets
stuck before `DMTExecute` has called back or was left by the exception of
`batchAcquireKeyLock`, which is not thrown if the executors keep to the lock protocol and
created addresses are new.  On the way no transaction is sent more than `2 * limit + 1`
messages, and there are at most about twice as many batches as messages, deadlocks included. -/
theorem dmtExecute_ends (hkeeps : executors.KeepsFrame) (hsettles : executors.Settles limit)
    (hanswers : executors.Answers) {env : ExecuteEnv} (hstart : env.startContextID = 0)
    (block : Block) :
    ∀ m, Machine.Steps (env.blockEnv block) env.staticCall executors (dmtStart env block) m →
      Inevitable (Machine.Moves (env.blockEnv block) env.staticCall executors)
        (Machine.EndedBy executors) m ∧
      (∀ c, m.timesSent c ≤ 2 * limit + 1) ∧
      m.sentBefore.flatten.length ≤ block.size * (2 * limit + 1) ∧
      m.history.length ≤ 2 * (block.size * (2 * limit + 1)) + 1 := by
  have hd := distinct_blockStates env block
  have h₀ := frameState_blockStates hstart block
  have hbase : ∀ n ∈ (blockStates env block).1, n.2.callStack.length ≤ 0 := fun n hn => by
    rw [(blockStates_fresh env block n hn).callStack, List.length_nil]
  have hsize : (blockStates env block).1.length = block.size := by
    have hlen := (contexts_blockStates env block).length_eq
    simpa [contexts] using hlen
  intro m hm
  have hexp := Steps.explained hd hm
  obtain ⟨_, _, hreach⟩ := hexp.reaches
  have hle := hreach.length_le hd h₀ hkeeps hsettles hbase
  rw [hsize] at hle
  refine ⟨?_, hexp.timesSent_le hd h₀ hkeeps hsettles hbase, hle⟩
  have hinevitable := (inevitable_ended hd h₀ hkeeps hsettles hbase hanswers hm).with_invariant
    (I := Machine.Steps (env.blockEnv block) env.staticCall executors (dmtStart env block))
    hm fun _ _ hrun hmove => hrun.tail hmove.1
  exact hinevitable.mono fun m hended => hended.1.endedBy hkeeps hstart hended.2

/-- Executors that call on, back and forth between `a` and `b`, until `limit`
messages of the transaction were sent, and then return. -/
def bouncing (limit : Nat) (before : List (List ExecutionMessage)) (message : ExecutionMessage) :
    Reply :=
  .message { message with
    type := if timesSent before message.contextID < limit then .MESSAGE else .FINISHED
    fromAddr := message.toAddr, toAddr := partner message.toAddr, keyLocks := [] }

theorem bouncing_keepsFrame (limit : Nat) :
    (Executors.ofFun (bouncing limit) plainRoot).KeepsFrame where
  contextID := by
    intro before message r h
    cases h
    rfl
  seq := by
    intro before message r h
    cases h
    rfl

theorem bouncing_settles (limit : Nat) :
    (Executors.ofFun (bouncing limit) plainRoot).Settles limit := by
  intro before message r h hle
  cases h
  exact Or.inl (if_neg (Nat.not_lt.mpr hle))

theorem ofFun_answers (reply : List (List ExecutionMessage) → ExecutionMessage → Reply)
    (hash : List (List ExecutionMessage) → Except Error H256) :
    (Executors.ofFun reply hash).Answers :=
  ⟨fun _ _ => ⟨_, rfl⟩, fun _ => ⟨_, rfl⟩⟩

/-- Two transactions with up to three frames each. -/
theorem dmtExecute_ends_two_calls :
    Inevitable (Machine.Moves (plainEnv.blockEnv (callsTo ["a", "b"])) false
      (.ofFun (bouncing 2) plainRoot)) (Machine.EndedBy (.ofFun (bouncing 2) plainRoot))
      (dmtStart plainEnv (callsTo ["a", "b"])) :=
  (dmtExecute_ends (bouncing_keepsFrame 2) (bouncing_settles 2) (ofFun_answers _ _) rfl _ _
    Relation.ReflTransGen.refl).1

/-! ### Success -/

/-- Executors that never fail. -/
structure Executors.Succeeds (executors : Executors) : Prop where
  reply : ∀ {before message r}, executors.reply before message r → r.failed = false
  hash : ∀ {before answer}, executors.hash before answer → ∃ root, answer = .ok root

/-- In every batch of every run the addresses that are assigned are new. -/
def AlwaysFresh (env : BlockEnv) (staticCall : Bool) (executors : Executors) (start : Machine) :
    Prop :=
  ∀ m, Machine.Steps env staticCall executors start m →
    (∀ b ∈ m.history, FreshAddresses b.dispatched) ∧ FreshAddresses m.log.dispatched

/-- The end is a success. -/
theorem Explained.success (h : Explained env executors staticCall states₀ ctx₀ m)
    (hd : DistinctContexts states₀) (h₀ : FrameState states₀ ctx₀.keyLocks)
    (hguard₀ : GuardedNodes ctx₀.keyLocks.table states₀) (hkeeps : executors.KeepsFrame)
    (hcontract : executors.KeepsContract) (hsucceeds : executors.Succeeds) (hfresh : m.Fresh)
    (hended : m.Ended) :
    ∃ header, m.phase = .finished (.success header) := by
  obtain ⟨outcome, hphase⟩ := hended
  have hno := h.no_fault hd h₀ hguard₀ hkeeps hcontract hfresh
  unfold Explained at h
  rw [hphase] at h
  rcases outcome with e | header | f
  · exfalso
    obtain ⟨-, ⟨states, ctx, log, c, rs, hreach, -, hsend, hans, hround, -⟩ |
      ⟨-, _, e', -, hhash, -⟩⟩ := h
    · -- no state had an error and no reply was a failure
      have hdist := hreach.distinct hd
      have hinv := (sendReach_of_sendAll hsend).frameInv hdist (hreach.frameState hd h₀ hkeeps)
      have hok : rs.countP (fun p => p.2.failed) = 0 := by
        rw [List.countP_eq_zero]
        intro p hp
        obtain ⟨d, -, -, hr⟩ := hans.reply p hp
        simp [hsucceeds.reply hr]
      unfold roundEnd endBatch runPass at hround
      simp only [SendLog.seen, hinv.noError, hok, Nat.add_zero, lt_irrefl, if_false] at hround
      split_ifs at hround
      · split at hround <;> cases hround
      · split at hround <;> cases hround
    · obtain ⟨root, hroot⟩ := hsucceeds.hash hhash
      cases hroot
  · exact ⟨header, hphase⟩
  · exact absurd hphase (hno f)

/-- The receipts are complete and the header, if one is due, is that of the block. -/
structure Machine.Completed (env : ExecuteEnv) (block : Block) (executors : Executors)
    (m : Machine) : Prop where
  success : ∃ header, m.phase = .finished (.success header) ∧
    (env.staticCall = true ∧ header = none ∨ ∃ root, executors.hash m.sentBefore (.ok root) ∧
      header = some ⟨block.number, root, m.log.ctx.gasUsed⟩)
  length : m.receipts.length = block.size
  receipts : ∀ r ∈ m.receipts, ∃ message : ExecutionMessage,
    message.returns ∧ r = some (createReceipt (env.blockEnv block) message)

/-- With executors that in addition never fail and keep to the lock protocol, and fresh
addresses from `m` on, `DMTExecute` comes to its callback with success. -/
theorem inevitable_completed (hd : DistinctContexts states₀) {env : ExecuteEnv} {block : Block}
    (h₀ : FrameState states₀ (initialContext block).keyLocks)
    (hguard₀ : GuardedNodes (initialContext block).keyLocks.table states₀)
    (hall : (contexts states₀).Perm ((List.range block.size).map fun j : Nat => (j : ContextID)))
    (hbase : ∀ n ∈ states₀, n.2.callStack.length ≤ base) (hkeeps : executors.KeepsFrame)
    (hcontract : executors.KeepsContract) (hsettles : executors.Settles limit)
    (hanswers : executors.Answers) (hsucceeds : executors.Succeeds)
    (hm : Machine.Steps (env.blockEnv block) env.staticCall executors
      (Machine.startBatch states₀ (initialContext block) []) m)
    (hfresh : AlwaysFresh (env.blockEnv block) env.staticCall executors m) :
    Inevitable (Machine.Moves (env.blockEnv block) env.staticCall executors)
      (Machine.Completed env block executors) m := by
  have hinevitable := inevitable_ended hd h₀ hkeeps hsettles hbase hanswers hm
  have hended := hinevitable.with_invariant
    (I := Machine.Steps (env.blockEnv block) env.staticCall executors m)
    .refl fun _ _ hrun hmove => hrun.tail hmove.1
  refine hended.mono ?_
  rintro m ⟨hret, hrun⟩
  have hexp := Steps.explained hd (hm.trans hrun)
  obtain ⟨header, hphase⟩ := hexp.success hd h₀ hguard₀ hkeeps hcontract hsucceeds
    (hfresh m hrun) hret
  obtain ⟨-, hperm, hreceipt, hlen⟩ := hexp.receipts hd hall (blockResults_length block) hphase
  refine ⟨⟨header, hphase, ?_⟩, hlen, fun r hr => ?_⟩
  · unfold Explained at hexp
    rw [hphase] at hexp
    obtain ⟨ctx, ⟨-, -, -, hlog⟩, -, ⟨hstatic, hnone⟩ | ⟨-, root, hroot, hsome⟩⟩ := hexp
    · exact Or.inl ⟨hstatic, hnone⟩
    · exact Or.inr ⟨root, hroot, by rw [hsome, hlog]; rfl⟩
  · -- the entry of every transaction was written when it was erased
    obtain ⟨i, hi, rfl⟩ := List.mem_iff_getElem.mp hr
    have hmem : ((i : Nat) : ContextID) ∈ m.erasedStates.map ExecutiveState.contextID :=
      hperm.mem_iff.mpr (List.mem_map.mpr ⟨i, List.mem_range.mpr (hlen ▸ hi), rfl⟩)
    obtain ⟨state, hstate, hctx⟩ := List.mem_map.mp hmem
    obtain ⟨message, hempties, hget⟩ := hreceipt state hstate
    rw [hctx, Int.toNat_natCast, List.getElem?_eq_getElem hi] at hget
    exact ⟨message, hempties.2.1, Option.some.inj hget⟩

theorem Explained.dispatched_contexts (h : Explained env executors staticCall states₀ ctx₀ m)
    (hd : DistinctContexts states₀) : ∀ d ∈ m.log.dispatched, d.contextID ∈ contexts states₀ := by
  obtain ⟨states, ctx, log, c, todo, hreach, hsend, -, hdisp⟩ := h.stop
  rw [hdisp]
  exact hreach.sent_mem hd hsend

/-- Of one transaction all addresses are fresh. -/
theorem alwaysFresh_of_one (hd : DistinctContexts states₀) (hone : states₀.length ≤ 1) :
    AlwaysFresh env staticCall executors (Machine.startBatch states₀ ctx₀ []) := by
  have hlen : (contexts states₀).length ≤ 1 := by rwa [contexts, List.length_map]
  have hsame : ∀ i ∈ contexts states₀, ∀ j ∈ contexts states₀, i = j := by
    generalize contexts states₀ = l at hlen
    rcases l with _ | ⟨a, _ | ⟨b, l⟩⟩
    · simp
    · simp
    · simp at hlen
  have hfresh : ∀ dispatched : List Dispatch,
      (∀ d ∈ dispatched, d.contextID ∈ contexts states₀) → FreshAddresses dispatched := by
    intro dispatched hmem d hd _ d' hd' hne
    exact absurd (hsame _ (hmem d' hd') _ (hmem d hd)) hne
  intro m hm
  have hexp := Steps.explained hd hm
  obtain ⟨_, _, hreach⟩ := hexp.reaches
  exact ⟨fun b hb => hfresh _ (hreach.dispatched_contexts hd b hb),
    hfresh _ (hexp.dispatched_contexts hd)⟩

theorem partner_ne_empty (contract : String) : partner contract ≠ "" := by
  unfold partner
  split_ifs <;> simp

theorem bouncing_keepsContract (limit : Nat) :
    (Executors.ofFun (bouncing limit) plainRoot).KeepsContract where
  fromAddr := by
    intro before message r h _
    cases h
    rfl
  toAddr := by
    intro before message r h htype
    cases h
    simp only at htype
    split_ifs at htype
  keyLocks := by
    intro before message r h _ key hkey
    cases h
    cases hkey
  target := by
    intro before message r h hempty
    cases h
    exact absurd hempty (partner_ne_empty _)

theorem bouncing_succeeds (limit : Nat) :
    (Executors.ofFun (bouncing limit) plainRoot).Succeeds where
  reply := by
    intro before message r h
    cases h
    rfl
  hash := by
    intro before answer h
    exact ⟨_, h⟩

end BcosScheduler
