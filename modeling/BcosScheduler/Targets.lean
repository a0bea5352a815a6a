/-
BcosScheduler/Targets.lean

One message per contract and batch.

`startBatch` skips a state whose contract was called in the batch, but it makes
this test before a message without target gets its address.  A message with a
target never meets another one (`NotCalled`); a created address can, for
instance when two transactions create with the same sender, code and salt.  So
the targets of a batch are distinct as long as every address is assigned fresh
(`AssignsFresh`), and an address that is not fresh is sent to twice.

Executors may reply anything, except that only requests and what they send back
come without target (`OnlyCreates`).
-/
import BcosScheduler.Dag

namespace BcosScheduler

/-- The targets of a batch. -/
def targets (dispatched : List Dispatch) : List String :=
  dispatched.map fun d => d.message.toAddr

/-- Only requests and what was sent back have no target. -/
def ExecutionMessage.OnlyCreates (message : ExecutionMessage) : Prop :=
  message.toAddr = "" →
    message.type = .MESSAGE ∨ message.type = .TXHASH ∨ message.type = .SEND_BACK

def OnlyCreates (state : ExecutiveState) : Prop :=
  ∀ message, state.message = some message → message.OnlyCreates

/-- Executors whose replies keep to this. -/
def Executors.OnlyCreates (executors : Executors) : Prop :=
  ∀ before message reply, executors.reply before message (.message reply) → reply.OnlyCreates

/-- The address `startBatch` would assign when it comes to the state. -/
def assignedTarget (env : BlockEnv) (state : ExecutiveState) : Option String :=
  match state.message with
  | none => none
  | some message =>
      if message.toAddr = "" then
        some (assignAddress env message state.contextID
          (if message.type = .SEND_BACK then message.seq else state.currentSeq))
      else none

/-- The state gets no address, or one that was not called in this batch. -/
def AssignsFresh (env : BlockEnv) (ctx : SendContext) (state : ExecutiveState) : Prop :=
  ∀ target, assignedTarget env state = some target → target ∉ ctx.calledContract

variable {env : BlockEnv} {executors : Executors} {staticCall : Bool} {ctx : SendContext}
  {log log' : SendLog} {state state' : ExecutiveState} {message : ExecutionMessage}
  {hint : TraverseHint} {m m' : Machine} {n : Node} {rest : List Node}

/-! ### One visit -/

theorem toAddr_withTarget (message : ExecutionMessage) (i : ContextID) (seq : Seq) :
    (withTarget env message i seq).toAddr
      = if message.toAddr = "" then assignAddress env message i seq else message.toAddr := by
  unfold withTarget
  split_ifs <;> rfl

/-- The target of a message that is sent: its own, or the assigned one. -/
theorem Prepares.target {callStack : List Seq} {currentSeq : Seq} {keyLocks : GraphKeyLocks}
    {message' : ExecutionMessage} {created : Bool}
    (h : Prepares env ctx state message callStack currentSeq keyLocks message' created)
    (hmsg : state.message = some message) (hcreates : message.OnlyCreates) :
    (message.toAddr ≠ "" ∧ message'.toAddr = message.toAddr) ∨
      assignedTarget env state = some message'.toAddr := by
  by_cases hempty : message.toAddr = ""
  · right
    rw [assignedTarget, hmsg]
    simp only [hempty, if_true, Option.some.injEq]
    cases h with
    | push htype =>
        have hne : message.type ≠ .SEND_BACK := by
          rcases htype with htype | htype <;> rw [htype] <;> decide
        show _ = (withTarget env message state.contextID state.currentSeq).toAddr
        rw [toAddr_withTarget, if_pos hempty, if_neg hne]
    | sendBack htype =>
        rw [toAddr_withTarget, if_pos hempty, if_pos htype]
        rfl
    | pop htype _ =>
        have hcases := hcreates hempty
        rcases htype with htype | htype <;> simp [htype] at hcases
    | revertKeyLock htype =>
        have hcases := hcreates hempty
        simp [htype] at hcases
    | retry htype _ =>
        have hcases := hcreates hempty
        simp [htype] at hcases
  · left
    refine ⟨hempty, ?_⟩
    cases h with
    | push _ =>
        show (withTarget env message state.contextID state.currentSeq).toAddr = _
        rw [toAddr_withTarget, if_neg hempty]
    | sendBack _ => rw [toAddr_withTarget, if_neg hempty]
    | pop _ _ => rfl
    | revertKeyLock _ => rfl
    | retry _ _ => rfl

/-! ### DMTExecute -/

/-- The message of the state, if it is there, has a target. -/
def HasTarget (state : ExecutiveState) : Prop :=
  ∀ message, state.message = some message → message.toAddr ≠ ""

/-- Invariant of `DMTExecute`. -/
structure TargetInv (m : Machine) : Prop where
  called : m.log.ctx.calledContract.reverse = targets m.log.dispatched
  nodup : (targets m.log.dispatched).Nodup
  total : m.log.status.total = m.log.dispatched.length
  creates : ∀ n ∈ m.states, OnlyCreates n.2
  /-- As long as nothing is sent, the traversal leaves only waiting states. -/
  unsent : m.log.dispatched = [] → m.log.status.error = 0 →
    m.cursor.bound = none ∧ ∀ n ∈ m.cursor.visited, HasTarget n.2
  ended : m.log.status.allSended = true → m.todo = []
  history : ∀ b ∈ m.history, (targets b.dispatched).Nodup

theorem targetInv_start {states : List Node} (hstates : ∀ n ∈ states, OnlyCreates n.2)
    (ctx : SendContext) {history : List BatchLog}
    (hhistory : ∀ b ∈ history, (targets b.dispatched).Nodup) :
    TargetInv (Machine.startBatch states ctx history) where
  called := rfl
  nodup := List.nodup_nil
  total := rfl
  creates := hstates
  unsent := fun _ _ => ⟨rfl, by simp [Machine.startBatch]⟩
  ended := fun h => by cases h
  history := hhistory

theorem TargetInv.mem_called (h : TargetInv m) {target : String} :
    target ∈ m.log.ctx.calledContract ↔ target ∈ targets m.log.dispatched := by
  rw [← h.called, List.mem_reverse]

/-- The message that is sent goes to the target of none before it, if its address
was assigned fresh. -/
theorem TargetInv.fresh (h : TargetInv m) {callStack : List Seq} {currentSeq : Seq}
    {keyLocks : GraphKeyLocks} {message' : ExecutionMessage} {created : Bool}
    (hprep : Prepares env m.log.ctx state message callStack currentSeq keyLocks message' created)
    (hmsg : state.message = some message) (hcreates : OnlyCreates state)
    (hnot : NotCalled m.log.ctx message) (hfresh : AssignsFresh env m.log.ctx state) :
    message'.toAddr ∉ targets m.log.dispatched := by
  rw [← h.mem_called]
  rcases hprep.target hmsg (hcreates message hmsg) with ⟨hne, htarget⟩ | hassigned
  · intro hin
    rw [htarget] at hin
    exact hnot ⟨hne, hin⟩
  · exact hfresh _ hassigned

theorem targets_sent (log : SendLog) (keyLocks : GraphKeyLocks) (i : ContextID)
    (message : ExecutionMessage) (created : Bool) :
    targets (log.sent keyLocks i message created).dispatched
      = targets log.dispatched ++ [message.toAddr] := by
  simp [SendLog.sent, targets, published]

theorem Sends.onlyCreates (h : Sends env log state hint log' state') (hstate : OnlyCreates state) :
    OnlyCreates state' := by
  cases h with
  | send => exact fun message hmsg => by cases hmsg
  | _ => exact hstate

theorem TargetInv.visit (h : TargetInv m) (htodo : m.todo = n :: rest)
    (hfresh : m.cursor.jumps n = false → n.2.error = none → AssignsFresh env m.log.ctx n.2) :
    TargetInv (m.visit env n rest) := by
  have hall : ∀ k ∈ m.cursor.visited ++ n :: rest, OnlyCreates k.2 := by
    rw [← htodo]
    exact h.creates
  have hn := hall n (by simp)
  unfold Machine.visit
  split
  next => exact ⟨h.called, h.nodup, h.total, h.creates, h.unsent, h.ended, h.history⟩
  next log' c' rest' hstep =>
    -- a node was ahead, so only an error can have ended the traversal
    have hended : log'.status.allSended = true → rest' = [] := by
      intro ha
      rcases (sendStep_effect hstep).2.2.2 with hsame | ⟨hnil, -⟩
      · have hnone := h.ended (hsame.symm.trans ha)
        rw [htodo] at hnone
        cases hnone
      · exact hnil
    rcases sendStep_cases hstep with ⟨hj, rfl, rfl, rfl⟩ | ⟨hj, hint, state, hsends, heq⟩
    · refine ⟨h.called, h.nodup, h.total, ?_, fun hnone herr => ?_, hended, h.history⟩
      · simpa [Machine.states, Cursor.keep] using hall
      · -- without a bound nothing is jumped over
        have hbound := (h.unsent hnone herr).1
        simp [Cursor.jumps, hbound] at hj
    · have hcreates := advance_states (P := OnlyCreates) hall (hsends.onlyCreates hn) hint
      rw [← heq] at hcreates
      cases hsends with
      | error =>
          exact ⟨h.called, h.nodup, h.total, hcreates, fun _ herr => absurd herr (Nat.succ_ne_zero _),
            hended, h.history⟩
      | skip _ _ _ hin =>
          refine ⟨h.called, h.nodup, h.total, hcreates, fun hnone _ => ?_, hended, h.history⟩
          rw [h.mem_called, hnone] at hin
          cases hin
      | wait _ hmsg _ htype =>
          cases heq
          refine ⟨h.called, h.nodup, h.total, hcreates, fun hnone herr => ?_, hended, h.history⟩
          obtain ⟨hbound, hvisited⟩ := h.unsent hnone herr
          refine ⟨hbound, fun k hk => ?_⟩
          rcases List.mem_append.mp hk with hk | hk
          · exact hvisited k hk
          · rw [List.mem_singleton.mp hk]
            intro message hmessage hempty
            obtain rfl := Option.some.inj (hmsg.symm.trans hmessage)
            have hcases := hn _ hmsg hempty
            simp [htype] at hcases
      | erase =>
          cases heq
          exact ⟨h.called, h.nodup, h.total, hcreates, h.unsent, hended, h.history⟩
      | @send message message' callStack currentSeq keyLocks created herr hmsg hnot hprep =>
          have hnew := h.fresh hprep hmsg hn hnot (hfresh hj herr)
          refine ⟨?_, ?_, ?_, hcreates, fun hnone _ => ?_, hended, h.history⟩
          · show (message'.toAddr :: m.log.ctx.calledContract).reverse = _
            rw [List.reverse_cons, h.called, targets_sent]
          · show (targets (m.log.sent _ _ _ _).dispatched).Nodup
            rw [targets_sent]
            apply List.Nodup.append h.nodup (List.nodup_singleton _)
            intro target htarget htarget'
            rw [List.mem_singleton.mp htarget'] at htarget
            exact hnew htarget
          · simp [SendLog.sent, h.total]
          · simp [SendLog.sent] at hnone

theorem TargetInv.receive (h : TargetInv m) (hexecutors : executors.OnlyCreates) {d : Dispatch}
    {reply : Reply} (hd : d ∈ m.log.dispatched)
    (hreply : executors.reply m.sentBefore d.message reply) :
    TargetInv (m.receive d.contextID reply) := by
  refine ⟨h.called, h.nodup, h.total, ?_, fun hnone => ?_, fun ha => ?_, h.history⟩
  · intro k hk message hmsg
    rw [Machine.states_receive] at hk
    obtain ⟨k₀, hk₀, rfl⟩ := List.mem_map.mp hk
    rcases Machine.message_storeAt hmsg with hold | ⟨-, rfl⟩
    · exact h.creates k₀ hk₀ message hold
    · exact hexecutors _ _ _ hreply
  · have hnone' : m.log.dispatched = [] := hnone
    rw [hnone'] at hd
    cases hd
  · simp [Machine.receive, h.ended ha]

theorem deadLockCallback_hasTarget {s s' : PassContext} (hstate : HasTarget state)
    (h : deadLockCallback s state = .ok (hint, s', state')) : HasTarget state' := by
  rcases deadLockCallback_cases h with ⟨-, -, rfl⟩ | ⟨message, hmsg, -, -, rfl⟩ | ⟨-, -, rfl⟩
  · exact hstate
  · intro message' hmsg'
    obtain rfl := Option.some.inj hmsg'
    exact hstate message hmsg
  · exact hstate

/-- The states of the next batch. -/
theorem TargetInv.endBatch (h : TargetInv m) (htodo : m.todo = []) {states' : List Node}
    {keyLocks' : GraphKeyLocks} {victims : List ContextID}
    (hend : endBatch m.log.status m.states m.log.ctx.keyLocks = .next states' keyLocks' victims) :
    ∀ n ∈ states', OnlyCreates n.2 := by
  obtain ⟨herror, ⟨htotal, hpass⟩ | hpass⟩ := endBatch_next hend
  · -- nothing was sent, so all states wait for a key and have a target
    have hnone : m.log.dispatched = [] := by
      rw [h.total] at htotal
      exact List.eq_nil_of_length_eq_zero htotal
    have hstates : ∀ n ∈ m.states, HasTarget n.2 := by
      rw [Machine.states, htodo, List.append_nil]
      exact (h.unsent hnone herror).2
    intro n hn message hmsg hempty
    exact absurd hempty (runPass_states deadLockCallback_hasTarget hstates hpass n hn message hmsg)
  · refine runPass_states (P := OnlyCreates) (fun hstate hcall message hmsg => ?_) h.creates hpass
    rw [keyLockCallback_message hcall] at hmsg
    exact hstate message hmsg

theorem TargetInv.blind (m : Machine) (receipts : List (Option Receipt)) (phase : Phase)
    (h : TargetInv m) : TargetInv { m with receipts := receipts, phase := phase } :=
  ⟨h.called, h.nodup, h.total, h.creates, h.unsent, h.ended, h.history⟩

theorem TargetInv.checkBatch (h : TargetInv m) : TargetInv (m.checkBatch staticCall) := by
  have hcalled : TargetInv { m with log := { m.log with status :=
      { m.log.status with callbackExecuted := true } } } :=
    ⟨h.called, h.nodup, h.total, h.creates, h.unsent, h.ended, h.history⟩
  apply Machine.checkBatch_rule staticCall TargetInv.blind hcalled _ h
  intro states' keyLocks victims hall hend
  apply targetInv_start (h.endBatch (h.ended hall) hend)
  intro b hb
  rcases List.mem_append.mp hb with hb | hb
  · exact h.history b hb
  · rw [List.mem_singleton.mp hb]
    exact h.nodup

/-- The address assigned by a visit, if there is one, is fresh. -/
def Machine.VisitsFresh (env : BlockEnv) (m m' : Machine) : Prop :=
  ∀ n rest, m.todo = n :: rest → m' = m.visit env n rest → m.cursor.jumps n = false →
    n.2.error = none → AssignsFresh env m.log.ctx n.2

theorem TargetInv.step (h : TargetInv m) (hexecutors : executors.OnlyCreates)
    (hstep : Machine.Step env staticCall executors m m') (hfresh : m.VisitsFresh env m') :
    TargetInv m' := by
  cases hstep with
  | visit _ htodo => exact h.visit htodo fun hj herr => hfresh _ _ htodo rfl hj herr
  | allSended _ htodo =>
      exact ⟨h.called, h.nodup, h.total, h.creates, h.unsent, fun _ => htodo, h.history⟩
  | check _ _ _ => exact h.checkBatch
  | reply _ hd _ hreply => exact (h.receive hexecutors hd hreply).checkBatch
  | @hash answer _ _ => exact Machine.hashDone_rule env TargetInv.blind h answer

/-- An address is assigned to a request without target. -/
theorem message_of_assignedTarget {target : String}
    (h : assignedTarget env state = some target) :
    ∃ message, state.message = some message ∧ message.toAddr = "" := by
  unfold assignedTarget at h
  split at h
  next => cases h
  next message hmsg =>
    split at h
    next hempty => exact ⟨message, hmsg, hempty⟩
    next => cases h

/-- An address that is not fresh is sent to twice. -/
theorem TargetInv.visit_twice (h : TargetInv m) (htodo : m.todo = n :: rest)
    (hj : m.cursor.jumps n = false) (herr : n.2.error = none)
    (hnot : ¬ AssignsFresh env m.log.ctx n.2) :
    ¬ (targets (m.visit env n rest).log.dispatched).Nodup := by
  obtain ⟨target, htarget, hcalled⟩ : ∃ target, assignedTarget env n.2 = some target ∧
      target ∈ m.log.ctx.calledContract := by
    simpa [AssignsFresh] using hnot
  obtain ⟨message, hmsg, hempty⟩ := message_of_assignedTarget htarget
  have hn : OnlyCreates n.2 := h.creates n (by simp [Machine.states, htodo])
  have htype := hn message hmsg hempty
  have hother : ¬ (message.type = .FINISHED ∨ message.type = .REVERT) := by
    rintro (he | he) <;> simp [he] at htype
  obtain ⟨⟨hint, log', state⟩, hcall⟩ : ∃ r, sendCallback env m.log n.2 = .ok r :=
    sendCallback_ok hmsg fun hret => absurd hret hother
  have hvisit : (m.visit env n rest).log = log' := by
    simp [Machine.visit, traverseStep, hj, hcall]
  rw [hvisit]
  cases sendCallback_sends hcall with
  | error herr' => simp [herr] at herr'
  | skip _ hmsg' hne _ =>
      obtain rfl := Option.some.inj (hmsg.symm.trans hmsg')
      exact absurd hempty hne
  | wait _ hmsg' _ htype' _ =>
      obtain rfl := Option.some.inj (hmsg.symm.trans hmsg')
      simp [htype'] at htype
  | erase _ hmsg' _ htype' _ =>
      obtain rfl := Option.some.inj (hmsg.symm.trans hmsg')
      exact absurd htype' hother
  | @send message₁ message' _ _ _ _ _ hmsg' _ hprep =>
      obtain rfl := Option.some.inj (hmsg.symm.trans hmsg')
      rw [targets_sent]
      rcases hprep.target hmsg (hn _ hmsg) with ⟨hne, -⟩ | hassigned
      · exact absurd hempty hne
      · obtain rfl := Option.some.inj (htarget.symm.trans hassigned)
        intro hnodup
        exact (List.nodup_append.mp hnodup).2.2 _ (h.mem_called.mp hcalled) _
          (List.mem_singleton.mpr rfl) rfl

/-! ### Blocks -/

namespace Execution

/-- The messages that came back from `DAGExecute` keep to `OnlyCreates`. -/
def OnlyCreates (x : Execution) : Prop :=
  ∀ d, x.dag = some d → ∀ n ∈ d.states, BcosScheduler.OnlyCreates n.2

/-- Every address assigned in a step is fresh. -/
def VisitsFresh (env : ExecuteEnv) (block : Block) (x x' : Execution) : Prop :=
  ∀ before after m m', x.dmts = before ++ m :: after → x'.dmts = before ++ m' :: after →
    Machine.VisitsFresh (env.blockEnv block) m m'

/-- Runs of a block whose visits assign fresh addresses. -/
def FreshSteps (env : ExecuteEnv) (block : Block) (executors : Executors) :
    Execution → Execution → Prop :=
  Relation.ReflTransGen fun x x' =>
    Step env block executors x x' ∧ x'.OnlyCreates ∧ x.VisitsFresh env block x'

end Execution

section Blocks

variable {env : ExecuteEnv} {block : Block} {x : Execution}

theorem onlyCreates_blockStates (env : ExecuteEnv) (block : Block) :
    ∀ n ∈ (blockStates env block).1, OnlyCreates n.2 := by
  intro n hn message hmsg _
  obtain ⟨i, -, p, hget, hp, -⟩ := (blockStates_fresh env block n hn).frame
  obtain rfl := Option.some.inj (hp.symm.trans hmsg)
  rcases (blockMessages_get hget).2 with htype | htype
  · exact Or.inl htype
  · exact Or.inr (Or.inl htype)

theorem Execution.FreshSteps.targetInv (hexecutors : executors.OnlyCreates)
    (h : Execution.FreshSteps env block executors (Execution.start env block) x) :
    ∀ m ∈ x.dmts, TargetInv m := by
  have hstart : ∀ states, (∀ n ∈ states, BcosScheduler.OnlyCreates n.2) →
      TargetInv (Machine.startBatch states (initialContext block) []) :=
    fun states hstates => targetInv_start hstates _ (by simp)
  induction h with
  | refl => exact Execution.start_dmts hstart (onlyCreates_blockStates env block)
  | tail _ hstep ih =>
      obtain ⟨hstep, hcreates, hfresh⟩ := hstep
      refine Execution.Step.dmts hstart (onlyCreates_blockStates env block) hcreates ?_ ih hstep
      intro before after m m' hdmts hdmts' hm hinv
      exact hinv.step hexecutors hm (hfresh _ _ _ _ hdmts hdmts')

/-- **One message per contract and batch.**  In every run of a block whose visits
assign fresh addresses, no two messages of a batch have the same target.  The
condition is exact: the next visit keeps the targets distinct if and only if the
address it assigns, if it assigns one, is fresh. -/
theorem one_message_per_contract (hexecutors : executors.OnlyCreates)
    (h : Execution.FreshSteps env block executors (Execution.start env block) x)
    (hm : m ∈ x.dmts) :
    (∀ b ∈ m.history, (targets b.dispatched).Nodup) ∧ (targets m.log.dispatched).Nodup ∧
    ∀ n rest, m.todo = n :: rest → m.cursor.jumps n = false → n.2.error = none →
      ((targets (m.visit (env.blockEnv block) n rest).log.dispatched).Nodup ↔
        AssignsFresh (env.blockEnv block) m.log.ctx n.2) := by
  have hinv := h.targetInv hexecutors m hm
  refine ⟨hinv.history, hinv.nodup, fun n rest htodo hj herr => ⟨fun hnodup => ?_, fun hfresh => ?_⟩⟩
  · by_contra hnot
    exact hinv.visit_twice htodo hj herr hnot hnodup
  · exact (hinv.visit htodo fun _ _ => hfresh).nodup

end Blocks

/-! ### Small blocks -/

/-- A hash function whose first 20 bytes depend on every byte. -/
def summing (bytes : Bytes) : H256 :=
  BitVec.ofNat 256 (bytes.foldl (fun sum b => sum * 257 + b.toNat) 1 * 2 ^ 96)

def summingEnv : ExecuteEnv := { plainEnv with hashImpl := summing }

/-- Executors that answer calls with a return. -/
def returning (before : List (List ExecutionMessage)) (message : ExecutionMessage) : Reply :=
  if message.toAddr = "" then .null else finishing before message

theorem returning_onlyCreates : (Executors.ofFun returning plainRoot).OnlyCreates := by
  intro before message reply h hempty
  have h' : Reply.message reply = returning before message := h
  unfold returning at h'
  split_ifs at h' with hto
  have hreply := Reply.message.inj h'
  rw [hreply] at hempty
  exact absurd hempty hto

theorem onlyCreates_withoutDAG (m : Machine) :
    Execution.OnlyCreates { nextBlock := false, dmts := [m] } := by
  intro d hd
  cases hd

/-- The step of a visit that assigns a fresh address, if any. -/
theorem freshStep_visit {env : ExecuteEnv} {block : Block} {n : Node} {rest : List Node}
    (hphase : m.phase = .batching) (htodo : m.todo = n :: rest)
    (hfresh : AssignsFresh (env.blockEnv block) m.log.ctx n.2) :
    Execution.FreshSteps env block executors { nextBlock := false, dmts := [m] }
      { nextBlock := false, dmts := [m.visit (env.blockEnv block) n rest] } := by
  refine .single ⟨@Execution.Step.dmt _ _ _ { nextBlock := false, dmts := [m] } [] [] _ _ rfl
    (.visit hphase htodo), onlyCreates_withoutDAG _, ?_⟩
  intro before after k k' hdmts hdmts' n' rest' htodo' hvisit _ _
  have hk : k ∈ [m] := by simp [show [m] = _ from hdmts]
  obtain rfl := List.mem_singleton.mp hk
  obtain ⟨rfl, -⟩ := List.cons.inj (htodo.symm.trans htodo')
  exact hfresh

/-- Two creations in one batch, each at an address of its own. -/
theorem one_message_per_contract_creates :
    ∃ m : Machine, m.log.dispatched.length = 2 ∧ (targets m.log.dispatched).Nodup := by
  let env := summingEnv.blockEnv (callsTo ["", ""])
  let first := dmtStart summingEnv (callsTo ["", ""])
  let nobody : Node := (toLex ("", 0), { contextID := 0, message := none })
  let n₁ := first.todo.headD nobody
  let second := first.visit env n₁ first.todo.tail
  let n₂ := second.todo.headD nobody
  let third := second.visit env n₂ second.todo.tail
  have hstart : Execution.FreshSteps summingEnv (callsTo ["", ""]) (.ofFun returning plainRoot)
      (Execution.start summingEnv (callsTo ["", ""])) { nextBlock := false, dmts := [first] } :=
    .single ⟨@Execution.Step.nextBlock _ _ _ _ none rfl, onlyCreates_withoutDAG first,
      fun before after m m' hdmts => absurd hdmts (by simp [Execution.start, summingEnv, plainEnv])⟩
  have hfirst : Execution.FreshSteps summingEnv (callsTo ["", ""]) (.ofFun returning plainRoot)
      { nextBlock := false, dmts := [first] } { nextBlock := false, dmts := [second] } :=
    freshStep_visit (by decide +kernel) (by decide +kernel) fun _ _ => List.not_mem_nil
  -- the second address is not the first one
  have hsecond : Execution.FreshSteps summingEnv (callsTo ["", ""]) (.ofFun returning plainRoot)
      { nextBlock := false, dmts := [second] } { nextBlock := false, dmts := [third] } := by
    refine freshStep_visit (by decide +kernel) (by decide +kernel) fun target htarget => ?_
    have hassigned : ∀ target ∈ assignedTarget env n₂.2, target ∉ second.log.ctx.calledContract := by
      decide +kernel
    exact hassigned target htarget
  obtain ⟨-, hnodup, -⟩ := one_message_per_contract returning_onlyCreates
    (hstart.trans (hfirst.trans hsecond)) (List.mem_singleton.mpr rfl)
  exact ⟨third, by decide +kernel, hnodup⟩

/-- Executors that answer every call with the same salted creation. -/
def saltedCreation (_ : List (List ExecutionMessage)) (message : ExecutionMessage) : Reply :=
  .message { message with type := .MESSAGE, fromAddr := "f", toAddr := "", create := true
                          createSalt := some 1, keyLocks := [] }

/-- Two transactions create with the same sender, code and salt, and the second
batch sends both messages to one address. -/
theorem create_target_twice :
    (Executors.ofFun saltedCreation plainRoot).OnlyCreates ∧
    ∃ x, Execution.Steps summingEnv (callsTo ["a", "b"]) (.ofFun saltedCreation plainRoot)
        (Execution.start summingEnv (callsTo ["a", "b"])) x ∧
      ∃ m ∈ x.dmts, ¬ (targets m.log.dispatched).Nodup := by
  refine ⟨fun before message reply h _ => Or.inl ?_, ?_⟩
  · have h' : Reply.message reply = saltedCreation before message := h
    rw [Reply.message.inj h']
  · let started : Execution :=
      { nextBlock := false, dmts := [dmtStart summingEnv (callsTo ["a", "b"])] }
    have hstart : Execution.Steps summingEnv (callsTo ["a", "b"])
        (.ofFun saltedCreation plainRoot) (Execution.start summingEnv (callsTo ["a", "b"])) started :=
      .single (@Execution.Step.nextBlock _ _ _ _ none rfl)
    have hrun := Execution.steps_dmt (x := started) rfl
      (@Machine.run_steps (summingEnv.blockEnv (callsTo ["a", "b"])) false saltedCreation plainRoot
        (dmtStart summingEnv (callsTo ["a", "b"]))
        [.visit, .visit, .allSended, .reply 0, .reply 1, .visit, .visit])
    refine ⟨_, hstart.trans hrun, _, List.mem_singleton.mpr rfl, ?_⟩
    decide +kernel

end BcosScheduler
