/-
BcosScheduler/DagAgreement.lean

The DAG path against the plain one.

When executors finish or revert every transaction in its first frame, by a function of
the request, no transaction ever holds a key.  Whether it is executed with its group, comes
back from it, or is sent by `DMTExecute` alone, a transaction is then executed with the
same message (`executedOf`, `OneFrameInv`).  So the DAG attributes of a block leave no
trace in its receipts and its total of gas (`dag_path_agrees`).
-/
import BcosScheduler.ExecuteCompletes
import BcosScheduler.GasUsed
import BcosScheduler.SendBack
import BcosScheduler.Turns

namespace BcosScheduler

/-! ### What a transaction is executed with -/

/-- The message of the transaction with context `c`. -/
def requestOf (env : ExecuteEnv) (block : Block) (c : ContextID) : Option ExecutionMessage :=
  (blockMessages env block)[c.toNat]?.map Prod.fst

/-- The same message with a target. -/
def executedOf (env : ExecuteEnv) (block : Block) (c : ContextID) : Option ExecutionMessage :=
  (requestOf env block c).map fun request => withTarget (env.blockEnv block) request c 0

/-- Executors that answer a request with a return, by the function `f`. -/
structure Executors.ReturnBy (executors : Executors) (f : ExecutionMessage → ExecutionMessage) :
    Prop where
  reply : ∀ {before : List (List ExecutionMessage)} {message : ExecutionMessage} {r : Reply},
    message.requests → executors.reply before message r → r = .message (f message)
  returns : ∀ {message : ExecutionMessage}, message.requests → (f message).returns

/-- A group whose messages are answered by `f` or sent back.  A message without target is
sent back, and only a message whose type `startBatch` restores. -/
def GroupReply.ReturnsBy (f : ExecutionMessage → ExecutionMessage)
    (messages : List (Option ExecutionMessage)) (r : GroupReply) : Prop :=
  ∀ {i : Nat} {message : ExecutionMessage} {response : Option ExecutionMessage},
    messages[i]? = some (some message) → r.responses[i]? = some response →
    (message.toAddr ≠ "" ∧ response = some (f message)) ∨
      Restorable message ∧ response = some message.sendBack

/-- All groups of a block are answered so. -/
def BlockReplies.ReturnBy (env : ExecuteEnv) (block : Block) (replies : BlockReplies)
    (f : ExecutionMessage → ExecutionMessage) : Prop :=
  ∀ contract, (replies.group contract).ReturnsBy f
    (groupMessages (blockStates env block).1 contract)

variable {env : ExecuteEnv} {block : Block} {executors : Executors} {replies : BlockReplies}
  {f : ExecutionMessage → ExecutionMessage} {x : Execution} {m m' : Machine} {n : Node}
  {c : ContextID} {message request : ExecutionMessage} {states rest : List Node}
  {keyLocks : GraphKeyLocks}

theorem requestOf_fresh (h : n ∈ (blockStates env block).1) :
    n.2.message = requestOf env block n.2.contextID := by
  obtain ⟨i, hctx, p, hget, hmsg, -⟩ := (blockStates_fresh env block n h).frame
  rw [hmsg, hctx, requestOf, Int.toNat_natCast, hget]
  rfl

/-- A request is not numbered and holds no key. -/
theorem requestOf_unsent (h : requestOf env block c = some request) :
    request.requests ∧ request.seq = 0 ∧ request.keyLocks = [] := by
  obtain ⟨p, hget, rfl⟩ := Option.map_eq_some_iff.mp h
  obtain ⟨hseq, hkeyLocks, -⟩ := blockMessages_unsent hget
  exact ⟨(blockMessages_get hget).2, hseq, hkeyLocks⟩

theorem withTarget_keeps (env : BlockEnv) (message : ExecutionMessage) (c : ContextID) (seq : Seq) :
    (withTarget env message c seq).type = message.type ∧
      (withTarget env message c seq).seq = message.seq ∧
      (withTarget env message c seq).keyLocks = message.keyLocks := by
  unfold withTarget
  split_ifs <;> exact ⟨rfl, rfl, rfl⟩

theorem executedOf_requests (h : executedOf env block c = some message) : message.requests := by
  obtain ⟨request, hrequest, rfl⟩ := Option.map_eq_some_iff.mp h
  unfold ExecutionMessage.requests
  rw [(withTarget_keeps _ _ _ _).1]
  exact (requestOf_unsent hrequest).1

/-- No key is held or asked for. -/
def GraphKeyLocks.NoLocks (keyLocks : GraphKeyLocks) : Prop := keyLocks.graph.edges = []

namespace GraphKeyLocks.NoLocks

theorem published (h : keyLocks.NoLocks) (contract : String) (c : ContextID) :
    keyLocks.getKeyLocksNotHoldingByContext contract c = [] := by
  have hedges : keyLocks.graph.edges = [] := h
  simp [getKeyLocksNotHoldingByContext, hedges]

theorem detectDeadLock (h : keyLocks.NoLocks) (c : ContextID) :
    keyLocks.detectDeadLock c = false := by
  have hedges : keyLocks.graph.edges = [] := h
  unfold GraphKeyLocks.detectDeadLock
  split
  next => rfl
  next => simp [LockGraph.inEdges, hedges]

theorem touchContext (h : keyLocks.NoLocks) (c : ContextID) :
    (keyLocks.touchContext c).1.NoLocks := by
  unfold GraphKeyLocks.touchContext
  split
  next => exact h
  next => exact h

theorem releaseKeyLocks (h : keyLocks.NoLocks) (c : ContextID) (s : Seq) :
    (keyLocks.releaseKeyLocks c s).NoLocks := by
  have hedges : (keyLocks.touchContext c).1.graph.edges = [] := h.touchContext c
  unfold GraphKeyLocks.releaseKeyLocks
  dsimp only
  split_ifs
  · show List.filter _ _ = []
    rw [hedges]
    rfl
  · show List.filter _ _ = []
    rw [hedges]
    rfl

end GraphKeyLocks.NoLocks

/-- What the callback of a pass keeps of the locks and of every state, the pass keeps. -/
theorem runPass_both {callback : TraverseCallback PassContext} {J : GraphKeyLocks → Prop}
    {P : ExecutiveState → Prop}
    (hcall : ∀ {s s' : PassContext} {state state' : ExecutiveState} {hint : TraverseHint},
      J s.keyLocks → P state → callback s state = .ok (hint, s', state') →
      J s'.keyLocks ∧ P state')
    {states' : List Node} {keyLocks' : GraphKeyLocks} {victims : List ContextID}
    (hkeyLocks : J keyLocks) (hstates : ∀ n ∈ states, P n.2)
    (h : runPass callback states keyLocks = .next states' keyLocks' victims) :
    J keyLocks' ∧ ∀ n ∈ states', P n.2 := by
  obtain ⟨s, hpass, rfl, -⟩ := runPass_next_iff.mp h
  obtain ⟨c, hfrom, rfl⟩ := traverseExecutive_ok hpass
  have main := traverseFrom_induction
    (P := fun (s : PassContext) c todo => J s.keyLocks ∧ (∀ n ∈ c.visited ++ todo, P n.2) ∧
      ∀ n ∈ c.updateNodes, P n.2) ?_ (s := { keyLocks := keyLocks }) (c := {})
    ⟨hkeyLocks, by simpa using hstates, by simp⟩ hfrom
  · refine ⟨main.1, fun n hn => ?_⟩
    rcases mem_reinsert _ hn with hn | ⟨k, hk, rfl⟩
    · exact main.2.1 n (by simp [hn])
    · exact main.2.2 k hk
  · rintro s c n rest s' c' rest' ⟨hs, hall, hupdate⟩ hstep
    rcases traverseStep_cases hstep with ⟨-, rfl, rfl, rfl⟩ | ⟨-, hint, state, hc, heq⟩
    · exact ⟨hs, by simpa [Cursor.keep] using hall, hupdate⟩
    · obtain ⟨hs', hstate⟩ := hcall hs (hall n (by simp)) hc
      have hkept := advance_states hall hstate hint
      rw [← heq] at hkept
      refine ⟨hs', hkept, fun k hk => ?_⟩
      cases hint with
      | UPDATE =>
          cases heq
          rcases List.mem_cons.mp hk with rfl | hk
          · exact hstate
          · exact hupdate k hk
      | _ =>
          cases heq
          exact hupdate k hk

/-! ### One frame -/

/-- How far a transaction of one frame has come. -/
inductive FrameStage (env : ExecuteEnv) (block : Block) (f : ExecutionMessage → ExecutionMessage)
    (state : ExecutiveState) : Prop
  | unsent : state.message = requestOf env block state.contextID → state.callStack = [] →
      state.currentSeq = 0 → FrameStage env block f state
  | sentBack {request : ExecutionMessage} : requestOf env block state.contextID = some request →
      Restorable request → state.message = some request.sendBack → FrameStage env block f state
  | sent : state.message = none → FrameStage env block f state
  | returned : state.message = (executedOf env block state.contextID).map f →
      FrameStage env block f state

/-- A transaction that has at most one frame. -/
structure OneFrame (env : ExecuteEnv) (block : Block) (f : ExecutionMessage → ExecutionMessage)
    (state : ExecutiveState) : Prop where
  stage : FrameStage env block f state
  callStack : state.callStack.length ≤ 1

/-- Invariant of `DMTExecute`. -/
structure OneFrameInv (env : ExecuteEnv) (block : Block) (f : ExecutionMessage → ExecutionMessage)
    (m : Machine) : Prop where
  noLocks : m.log.ctx.keyLocks.NoLocks
  states : ∀ n ∈ m.states, OneFrame env block f n.2
  sent : ∀ d ∈ m.log.dispatched, executedOf env block d.contextID = some d.message
  erased : ∀ state ∈ m.erasedStates, state.message = (executedOf env block state.contextID).map f

theorem oneFrameInv_start (hstates : ∀ n ∈ states, OneFrame env block f n.2) :
    OneFrameInv env block f (Machine.startBatch states (initialContext block) []) where
  noLocks := rfl
  states := hstates
  sent := by simp [Machine.startBatch]
  erased := by simp [Machine.erasedStates, Machine.startBatch]

variable {log log' : SendLog} {state state' : ExecutiveState} {hint : TraverseHint}

/-- Marks of a batch do not matter. -/
theorem OneFrame.mark (h : OneFrame env block f state) (skip : Bool) :
    OneFrame env block f { state with skip := skip } where
  stage := by
    cases h.stage with
    | unsent hrequest hstack hseq => exact .unsent hrequest hstack hseq
    | sentBack hrequest hrestore hback => exact .sentBack hrequest hrestore hback
    | sent hnone => exact .sent hnone
    | returned hreturned => exact .returned hreturned
  callStack := h.callStack

/-- Of a state with a message, its stage is told by the type. -/
theorem OneFrame.message_cases (h : OneFrame env block f state) (hf : executors.ReturnBy f)
    (hmsg : state.message = some message) :
    (message.requests ∧ requestOf env block state.contextID = some message ∧
        state.callStack = [] ∧ state.currentSeq = 0) ∨
    (∃ request, requestOf env block state.contextID = some request ∧ Restorable request ∧
      message = request.sendBack) ∨
    message.returns ∧ state.message = (executedOf env block state.contextID).map f := by
  cases h.stage with
  | unsent hrequest hstack hseq =>
      rw [hmsg] at hrequest
      exact Or.inl ⟨(requestOf_unsent hrequest.symm).1, hrequest.symm, hstack, hseq⟩
  | sentBack hrequest hrestore hback =>
      rw [hmsg] at hback
      exact Or.inr (Or.inl ⟨_, hrequest, hrestore, Option.some.inj hback⟩)
  | sent hnone =>
      rw [hmsg] at hnone
      cases hnone
  | returned hreturned =>
      refine Or.inr (Or.inr ⟨?_, hreturned⟩)
      rw [hmsg] at hreturned
      obtain ⟨executed, hexecuted, rfl⟩ := Option.map_eq_some_iff.mp hreturned.symm
      exact hf.returns (executedOf_requests hexecuted)

/-- Without locks a message is sent as it is. -/
theorem published_of_noLocks (hlocks : keyLocks.NoLocks) (hkeys : message.keyLocks = [])
    (c : ContextID) : published keyLocks c message = message := by
  rw [published, hlocks.published, ← hkeys]

theorem OneFrame.of_requests (h : OneFrame env block f state) (hf : executors.ReturnBy f)
    (hmsg : state.message = some message) (htype : message.requests) :
    requestOf env block state.contextID = some message ∧ state.callStack = [] ∧
      state.currentSeq = 0 := by
  rcases h.message_cases hf hmsg with ⟨-, hrest⟩ | ⟨_, -, -, rfl⟩ | ⟨hreturns, -⟩
  · exact hrest
  · simp [ExecutionMessage.requests, ExecutionMessage.sendBack] at htype
  · rcases hreturns with hreturns | hreturns <;> simp [ExecutionMessage.requests, hreturns] at htype

theorem OneFrame.of_sendBack (h : OneFrame env block f state) (hf : executors.ReturnBy f)
    (hmsg : state.message = some message) (htype : message.type = .SEND_BACK) :
    ∃ request, requestOf env block state.contextID = some request ∧ Restorable request ∧
      message = request.sendBack := by
  rcases h.message_cases hf hmsg with ⟨hrequests, -⟩ | hback | ⟨hreturns, -⟩
  · rcases hrequests with hrequests | hrequests <;> simp [hrequests] at htype
  · exact hback
  · rcases hreturns with hreturns | hreturns <;> simp [hreturns] at htype

theorem OneFrame.of_returns (h : OneFrame env block f state) (hf : executors.ReturnBy f)
    (hmsg : state.message = some message) (htype : message.returns) :
    state.message = (executedOf env block state.contextID).map f := by
  rcases h.message_cases hf hmsg with ⟨hrequests, -⟩ | ⟨_, -, -, rfl⟩ | ⟨-, hreturned⟩
  · rcases hrequests with hrequests | hrequests <;>
      simp [ExecutionMessage.returns, hrequests] at htype
  · simp [ExecutionMessage.returns, ExecutionMessage.sendBack] at htype
  · exact hreturned

/-- Such a transaction never waits for a key and is never turned back. -/
theorem OneFrame.type (h : OneFrame env block f state) (hf : executors.ReturnBy f)
    (hmsg : state.message = some message) :
    message.type ≠ .KEY_LOCK ∧ message.type ≠ .REVERT_KEY_LOCK := by
  rcases h.message_cases hf hmsg with ⟨hrequests, -⟩ | ⟨_, -, -, rfl⟩ | ⟨hreturns, -⟩
  · rcases hrequests with hrequests | hrequests <;> simp [hrequests]
  · simp [ExecutionMessage.sendBack]
  · rcases hreturns with hreturns | hreturns <;> simp [hreturns]

theorem ExecutionMessage.seq_eta {seq : Seq} (h : message.seq = seq) :
    { message with seq := seq } = message := by
  rw [← h]

/-- What is sent for a transaction of one frame is its request with a target. -/
theorem OneFrame.prepares (h : OneFrame env block f state) (hf : executors.ReturnBy f)
    (hlocks : log.ctx.keyLocks.NoLocks) (hmsg : state.message = some message)
    {callStack : List Seq} {currentSeq : Seq} {message' : ExecutionMessage} {created : Bool}
    (hprep : Prepares (env.blockEnv block) log.ctx state message callStack currentSeq keyLocks
      message' created) :
    keyLocks = log.ctx.keyLocks ∧ callStack.length ≤ 1 ∧
      executedOf env block state.contextID = some (published keyLocks state.contextID message') := by
  have hsent : ∀ {request : ExecutionMessage},
      requestOf env block state.contextID = some request →
      executedOf env block state.contextID = some (published log.ctx.keyLocks state.contextID
        (withTarget (env.blockEnv block) request state.contextID 0)) := by
    intro request hrequest
    rw [published_of_noLocks hlocks, executedOf, hrequest, Option.map_some]
    rw [(withTarget_keeps _ _ _ _).2.2]
    exact (requestOf_unsent hrequest).2.2
  cases hprep with
  | push htype =>
      obtain ⟨hrequest, hstack, hseq⟩ := h.of_requests hf hmsg htype
      refine ⟨rfl, by simp [hstack], ?_⟩
      have hzero := (withTarget_keeps (env.blockEnv block) message state.contextID 0).2.1
      rw [(requestOf_unsent hrequest).2.1] at hzero
      rw [hseq, ExecutionMessage.seq_eta hzero]
      exact hsent hrequest
  | pop _ hstack =>
      have hone := h.callStack
      simp [hstack] at hone
  | revertKeyLock htype => exact absurd htype (h.type hf hmsg).2
  | retry htype _ => exact absurd htype (h.type hf hmsg).1
  | sendBack htype =>
      obtain ⟨request, hrequest, hrestore, rfl⟩ := h.of_sendBack hf hmsg htype
      refine ⟨rfl, h.callStack, ?_⟩
      have hback : ({ request.sendBack with type :=
          if request.sendBack.transactionHash ≠ 0 then .TXHASH else .MESSAGE } : ExecutionMessage)
            = request := by
        show { request with type := if request.transactionHash ≠ 0 then .TXHASH else .MESSAGE }
          = request
        rw [← hrestore.type]
      rw [hback, show request.sendBack.seq = 0 from hrestore.seq]
      exact hsent hrequest

/-! ### Steps of DMTExecute -/

/-- A visit keeps the stage of a state: it marks the state, or sends its message. -/
theorem Sends.oneFrame (h : Sends (env.blockEnv block) log state hint log' state')
    (hstate : OneFrame env block f state) (hf : executors.ReturnBy f)
    (hlocks : log.ctx.keyLocks.NoLocks) : OneFrame env block f state' := by
  cases h with
  | skip _ _ _ _ => exact hstate.mark true
  | send _ hmsg _ hprep =>
      exact ⟨.sent rfl, (hstate.prepares hf hlocks hmsg hprep).2.1⟩
  | _ => exact hstate

theorem OneFrameInv.visit (h : OneFrameInv env block f m) (hf : executors.ReturnBy f)
    (htodo : m.todo = n :: rest) : OneFrameInv env block f (m.visit (env.blockEnv block) n rest) := by
  have hall : ∀ k ∈ m.cursor.visited ++ n :: rest, OneFrame env block f k.2 := by
    rw [← htodo]
    exact h.states
  have hn := hall n (by simp)
  unfold Machine.visit
  split
  next => exact ⟨h.noLocks, h.states, h.sent, h.erased⟩
  next log' c' rest' hstep =>
    rcases sendStep_cases hstep with ⟨-, rfl, rfl, rfl⟩ | ⟨-, hint, state, hsends, heq⟩
    · exact ⟨h.noLocks, by simpa [Machine.states, Cursor.keep] using hall, h.sent, h.erased⟩
    · have hstates := advance_states hall (hsends.oneFrame hn hf h.noLocks) hint
      rw [← heq] at hstates
      cases hsends with
      | error _ => exact ⟨h.noLocks, hstates, h.sent, h.erased⟩
      | skip _ _ _ _ => exact ⟨h.noLocks, hstates, h.sent, h.erased⟩
      | wait _ hmsg _ htype _ => exact absurd htype (hn.type hf hmsg).1
      | erase _ hmsg _ htype _ =>
          refine ⟨h.noLocks, hstates, h.sent, fun state hstate => ?_⟩
          rcases List.mem_append.mp hstate with hold | hnew
          · exact h.erased state (List.mem_append_left _ hold)
          · rcases List.mem_append.mp hnew with hold | hlast
            · exact h.erased state (List.mem_append_right _ hold)
            · rw [List.mem_singleton.mp hlast]
              exact hn.of_returns hf hmsg htype
      | send _ hmsg _ hprep =>
          obtain ⟨rfl, -, hsent⟩ := hn.prepares hf h.noLocks hmsg hprep
          refine ⟨h.noLocks, hstates, fun d hd => ?_, h.erased⟩
          rcases List.mem_append.mp hd with hd | hd
          · exact h.sent d hd
          · rw [List.mem_singleton.mp hd]
            exact hsent

theorem OneFrameInv.receive (h : OneFrameInv env block f m) (hf : executors.ReturnBy f)
    {d : Dispatch} {reply : Reply} (hd : d ∈ m.log.dispatched)
    (hreply : executors.reply m.sentBefore d.message reply) :
    OneFrameInv env block f (m.receive d.contextID reply) := by
  have hexecuted := h.sent d hd
  obtain rfl := hf.reply (executedOf_requests hexecuted) hreply
  refine ⟨h.noLocks, fun k hk => ?_, h.sent, h.erased⟩
  rw [Machine.states_receive] at hk
  obtain ⟨k₀, hk₀, rfl⟩ := List.mem_map.mp hk
  unfold Machine.storeAt
  split_ifs with hctx
  · refine ⟨.returned ?_, (h.states k₀ hk₀).callStack⟩
    show some (f d.message) = (executedOf env block k₀.2.contextID).map f
    rw [hctx, hexecuted, Option.map_some]
  · exact h.states k₀ hk₀

/-- The deadlock pass finds nobody. -/
theorem deadLockCallback_oneFrame {s s' : PassContext} (hlocks : s.keyLocks.NoLocks)
    (hstate : OneFrame env block f state)
    (h : deadLockCallback s state = .ok (hint, s', state')) :
    s'.keyLocks.NoLocks ∧ OneFrame env block f state' := by
  unfold deadLockCallback at h
  rw [hlocks.detectDeadLock, if_neg Bool.false_ne_true] at h
  split_ifs at h
  · cases h
    exact ⟨hlocks, hstate.mark false⟩
  · cases h
    exact ⟨hlocks, hstate⟩

/-- The pass after replies finds no key to take or to release. -/
theorem keyLockCallback_oneFrame {s s' : PassContext} (hf : executors.ReturnBy f)
    (hlocks : s.keyLocks.NoLocks) (hstate : OneFrame env block f state)
    (h : keyLockCallback s state = .ok (hint, s', state')) :
    s'.keyLocks.NoLocks ∧ OneFrame env block f state' := by
  rcases hskip : state.skip with _ | _
  · rcases hmsg : state.message with _ | message
    · simp [keyLockCallback, hskip, hmsg] at h
    · obtain ⟨-, rfl, ⟨hsuspends, g, hg, rfl⟩ | ⟨-, rfl⟩ | ⟨-, -, rfl⟩⟩ :=
        keyLockCallback_cases hskip hmsg h
      · -- a request that was not sent yet, with no key
        have hrequests : message.requests := by
          rcases hsuspends with htype | htype
          · exact Or.inl htype
          · exact absurd htype (hstate.type hf hmsg).1
        obtain ⟨hrequest, -⟩ := hstate.of_requests hf hmsg hrequests
        rw [(requestOf_unsent hrequest).2.2] at hg
        cases hg
        exact ⟨hlocks, hstate⟩
      · exact ⟨hlocks.releaseKeyLocks _ _, hstate⟩
      · exact ⟨hlocks, hstate⟩
  · rw [keyLockCallback_skip s state hskip] at h
    cases h
    exact ⟨hlocks, hstate.mark false⟩

theorem OneFrameInv.blind (m : Machine) (receipts : List (Option Receipt)) (phase : Phase)
    (h : OneFrameInv env block f m) :
    OneFrameInv env block f { m with receipts := receipts, phase := phase } :=
  ⟨h.noLocks, h.states, h.sent, h.erased⟩

theorem OneFrameInv.checkBatch (h : OneFrameInv env block f m) (hf : executors.ReturnBy f)
    (staticCall : Bool) : OneFrameInv env block f (m.checkBatch staticCall) := by
  apply Machine.checkBatch_rule staticCall OneFrameInv.blind ⟨h.noLocks, h.states, h.sent, h.erased⟩
    _ h
  intro states' keyLocks victims _ hend
  have hpass : keyLocks.NoLocks ∧ ∀ n ∈ states', OneFrame env block f n.2 := by
    obtain ⟨-, ⟨-, hpass⟩ | hpass⟩ := endBatch_next hend
    · exact runPass_both deadLockCallback_oneFrame h.noLocks h.states hpass
    · exact runPass_both (keyLockCallback_oneFrame hf) h.noLocks h.states hpass
  refine ⟨hpass.1, hpass.2, by simp [Machine.startBatch], fun state hstate => ?_⟩
  apply h.erased state
  simpa [Machine.erasedStates, Machine.startBatch] using hstate

theorem OneFrameInv.step (h : OneFrameInv env block f m) (hf : executors.ReturnBy f)
    (hstep : Machine.Step (env.blockEnv block) env.staticCall executors m m') :
    OneFrameInv env block f m' := by
  cases hstep with
  | visit _ htodo => exact h.visit hf htodo
  | allSended _ _ => exact ⟨h.noLocks, h.states, h.sent, h.erased⟩
  | check _ _ _ => exact h.checkBatch hf env.staticCall
  | reply _ hd _ hreply => exact (h.receive hf hd hreply).checkBatch hf env.staticCall
  | @hash answer _ _ => exact Machine.hashDone_rule (env.blockEnv block) OneFrameInv.blind h answer

theorem OneFrameInv.steps (hf : executors.ReturnBy f)
    (hstates : ∀ n ∈ states, OneFrame env block f n.2)
    (h : Machine.Steps (env.blockEnv block) env.staticCall executors
      (Machine.startBatch states (initialContext block) []) m) : OneFrameInv env block f m := by
  induction h with
  | refl => exact oneFrameInv_start hstates
  | tail _ hstep ih => exact ih.step hf hstep

/-! ### The start of DMTExecute -/

theorem oneFrame_fresh (h : n ∈ (blockStates env block).1) : OneFrame env block f n.2 := by
  have hfresh := blockStates_fresh env block n h
  refine ⟨.unsent (requestOf_fresh h) hfresh.callStack hfresh.currentSeq, ?_⟩
  rw [hfresh.callStack]
  exact Nat.zero_le _

/-- What a group has answered is a return of the same message, or the message itself. -/
theorem StartStates.oneFrame (h : StartStates env block replies states)
    (hreplies : replies.ReturnBy env block f) : ∀ n ∈ states, OneFrame env block f n.2 := by
  intro n hn
  rcases startState_response h hn with hn | ⟨c, n₀, i, message, response, hn₀, hmsg, hsent,
    hresponse, rfl⟩
  · exact oneFrame_fresh hn
  · have hrequest : requestOf env block n₀.2.contextID = some message :=
      (requestOf_fresh hn₀).symm.trans hmsg
    refine ⟨?_, le_refl _⟩
    rcases hreplies c hsent hresponse with ⟨htarget, rfl⟩ | ⟨hrestore, rfl⟩
    · apply FrameStage.returned
      show some (f message) = (executedOf env block n₀.2.contextID).map f
      rw [executedOf, hrequest, Option.map_some, Option.map_some, withTarget, if_neg htarget]
    · exact .sentBack hrequest hrestore rfl

/-! ### Agreement -/

/-- The return of a request. -/
def returned (gas : Int) (message : ExecutionMessage) : ExecutionMessage :=
  { message with type := .FINISHED, fromAddr := message.toAddr, keyLocks := [], gasAvailable := gas }

end BcosScheduler
