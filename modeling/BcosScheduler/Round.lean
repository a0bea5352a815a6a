/-
BcosScheduler/Round.lean

Batches as a whole.

`SendReach` are the stops of the sending traversal of one batch when no reply
has been written yet; `applyReplies` writes replies over the nodes.  A reply
written in the middle of the traversal changes neither a node ahead nor
anything the traversal looks at (`traverseStep_seen`), because contexts are
distinct and a context is sent to at most once in a batch (`SendShape`).
-/
import BcosScheduler.Sends
import BcosScheduler.Traverse

namespace BcosScheduler

/-! ### One batch -/

/-- The sending traversal of a batch from its start. -/
def sendAll (env : BlockEnv) (states : List Node) (ctx : SendContext) :
    Except Fault (SendLog × Cursor) :=
  traverseFrom (sendCallback env) states { ctx := { ctx with calledContract := [] } } {}

/-- The stops of the sending traversal, replies left aside. -/
inductive SendReach (env : BlockEnv) (states : List Node) (ctx : SendContext) :
    SendLog → Cursor → List Node → Prop
  | start : SendReach env states ctx { ctx := { ctx with calledContract := [] } } {} states
  | step {log log' : SendLog} {c c' : Cursor} {n : Node} {rest rest' : List Node} :
      SendReach env states ctx log c (n :: rest) →
      traverseStep (sendCallback env) n rest log c = .ok (log', c', rest') →
      SendReach env states ctx log' c' rest'

variable {env : BlockEnv} {states : List Node} {ctx : SendContext} {log log' : SendLog}
  {c c' : Cursor} {n : Node} {todo rest rest' : List Node}

/-- The rest of the traversal gives its result. -/
theorem SendReach.sendAll_eq (h : SendReach env states ctx log c todo) :
    sendAll env states ctx = traverseFrom (sendCallback env) todo log c := by
  induction h with
  | start => rfl
  | step _ hstep ih => rw [ih, traverseFrom_cons, hstep]

/-- What one turn of the sending traversal can do. -/
theorem sendStep_cases
    (h : traverseStep (sendCallback env) n rest log c = .ok (log', c', rest')) :
    (c.jumps n = true ∧ log' = log ∧ c' = c.keep n ∧ rest' = rest) ∨
    c.jumps n = false ∧ ∃ hint state, Sends env log n.2 hint log' state ∧
      (c', rest') = c.advance hint (n.1, state) rest := by
  rcases traverseStep_cases h with hj | ⟨hj, hint, state, hcall, heq⟩
  · exact Or.inl hj
  · exact Or.inr ⟨hj, hint, state, sendCallback_sends hcall, heq⟩

/-- A turn prepares at most one message and leaves the counters of the handlers
alone; `allSended` is set only by an error, which ends the traversal. -/
theorem sendStep_effect
    (h : traverseStep (sendCallback env) n rest log c = .ok (log', c', rest')) :
    (∃ new : Option Dispatch, log'.dispatched = log.dispatched ++ new.toList) ∧
      log'.status.received = log.status.received ∧
      log'.status.callbackExecuted = log.status.callbackExecuted ∧
      (log'.status.allSended = log.status.allSended ∨
        rest' = [] ∧ log'.dispatched = log.dispatched) := by
  rcases sendStep_cases h with ⟨-, rfl, -, -⟩ | ⟨-, hint, state, hsends, heq⟩
  · exact ⟨⟨none, by simp⟩, rfl, rfl, Or.inl rfl⟩
  · cases hsends with
    | error =>
        cases heq
        exact ⟨⟨none, by simp⟩, rfl, rfl, Or.inr ⟨rfl, rfl⟩⟩
    | skip => exact ⟨⟨none, by simp⟩, rfl, rfl, Or.inl rfl⟩
    | wait => exact ⟨⟨none, by simp⟩, rfl, rfl, Or.inl rfl⟩
    | erase => exact ⟨⟨none, by simp [SendLog.erase]⟩, rfl, rfl, Or.inl rfl⟩
    | send => exact ⟨⟨some _, rfl⟩, rfl, rfl, Or.inl rfl⟩

/-- The contexts messages were sent for. -/
def SendLog.sentTo (log : SendLog) : List ContextID := log.dispatched.map Dispatch.contextID

/-- Book-keeping of the sending traversal. -/
structure SendShape (states : List Node) (log : SendLog) (c : Cursor) (todo : List Node) :
    Prop where
  total : log.status.total = log.dispatched.length
  received : log.status.received = 0
  pending : log.status.callbackExecuted = false
  updateNodes : c.updateNodes = []
  /-- No context is lost. -/
  perm : (contexts (c.visited ++ todo) ++ log.erased.map ExecutiveState.contextID).Perm
    (contexts states)
  keyed : KeyedByContext (c.visited ++ todo)
  sentNodup : log.sentTo.Nodup
  sentVisited : ∀ i ∈ log.sentTo, i ∈ contexts c.visited
  /-- An error ends the traversal. -/
  ended : log.status.allSended = true → todo = [] ∧ 0 < log.status.error

theorem SendShape.start (hkeyed : KeyedByContext states) :
    SendShape states { ctx := ctx } {} states where
  total := rfl
  received := rfl
  pending := rfl
  updateNodes := rfl
  perm := by simp
  keyed := by simpa using hkeyed
  sentNodup := by simp [SendLog.sentTo]
  sentVisited := by simp [SendLog.sentTo]
  ended := by simp

/-- The contexts of the nodes of a batch stay distinct. -/
theorem SendShape.nodup (h : SendShape states log c todo) (hnodup : (contexts states).Nodup) :
    (contexts c.visited ++ contexts todo).Nodup := by
  have hall := h.perm.nodup_iff.mpr hnodup
  rw [contexts_append] at hall
  exact (List.nodup_append.mp hall).1

/-- The counter of sent messages tells whether there are any. -/
theorem SendShape.dispatched_nil (h : SendShape states log c todo)
    (htotal : log.status.total = 0) : log.dispatched = [] := by
  rw [h.total] at htotal
  exact List.eq_nil_of_length_eq_zero htotal

/-- A node left where it is, with another state of the same context. -/
theorem SendShape.keepNode (h : SendShape states log c (n :: rest))
    {state : ExecutiveState} (hctx : state.contextID = n.2.contextID) :
    (contexts (c.visited ++ [(n.1, state)] ++ rest)
        ++ log.erased.map ExecutiveState.contextID).Perm (contexts states) ∧
      KeyedByContext (c.visited ++ [(n.1, state)] ++ rest) := by
  constructor
  · have := h.perm
    simpa [contexts, hctx] using this
  · intro m hm
    simp only [List.append_assoc, List.mem_append, List.mem_cons, List.not_mem_nil,
      or_false] at hm
    rcases hm with hm | rfl | hm
    · exact h.keyed m (by simp [hm])
    · rw [hctx]
      exact h.keyed n (by simp)
    · exact h.keyed m (by simp [hm])

theorem SendShape.step (h : SendShape states log c (n :: rest))
    (hnodup : (contexts states).Nodup)
    (hstep : traverseStep (sendCallback env) n rest log c = .ok (log', c', rest')) :
    SendShape states log' c' rest' := by
  -- a node is ahead, so no error has ended the traversal
  have hopen : log.status.allSended = true → False := fun ha => by simpa using (h.ended ha).1
  have hgrow : ∀ (m : Node) i, i ∈ log.sentTo → i ∈ contexts (c.visited ++ [m]) := by
    intro m i hi
    rw [contexts_append]
    exact List.mem_append_left _ (h.sentVisited i hi)
  rcases sendStep_cases hstep with ⟨-, rfl, rfl, rfl⟩ | ⟨-, hint, state, hsends, heq⟩
  · obtain ⟨hperm, hkeyed⟩ := h.keepNode rfl
    exact ⟨h.total, h.received, h.pending, h.updateNodes, hperm, hkeyed, h.sentNodup,
      hgrow n, fun ha => absurd ha hopen⟩
  · obtain ⟨hperm, hkeyed⟩ := h.keepNode hsends.contextID
    cases hsends with
    | error =>
        cases heq
        refine ⟨h.total, h.received, h.pending, h.updateNodes, ?_, ?_, h.sentNodup, ?_,
          fun _ => ⟨rfl, Nat.succ_pos _⟩⟩
        · simpa using hperm
        · simpa using hkeyed
        · intro i hi
          rw [contexts_append]
          exact List.mem_append_left _ (h.sentVisited i hi)
    | skip =>
        cases heq
        exact ⟨h.total, h.received, h.pending, h.updateNodes, hperm, hkeyed, h.sentNodup,
          hgrow _, fun ha => absurd ha hopen⟩
    | wait =>
        cases heq
        exact ⟨h.total, h.received, h.pending, h.updateNodes, hperm, hkeyed, h.sentNodup,
          hgrow _, fun ha => absurd ha hopen⟩
    | erase =>
        cases heq
        refine ⟨h.total, h.received, h.pending, h.updateNodes, ?_, ?_, h.sentNodup,
          h.sentVisited, fun ha => absurd ha hopen⟩
        · -- the context moves from the nodes ahead to the erased ones
          have hmoved := h.perm
          simp only [contexts, List.map_cons, SendLog.erase, List.map_append,
            List.append_assoc, List.cons_append, List.map_nil] at hmoved ⊢
          refine List.Perm.trans ?_ hmoved
          apply List.Perm.append_left _
          rw [← List.append_assoc]
          exact List.perm_append_comm
        · exact fun m hm => h.keyed m (by
            simp only [List.mem_append, List.mem_cons] at hm ⊢
            tauto)
    | @send message message' callStack currentSeq keyLocks created =>
        cases heq
        refine ⟨?_, h.received, h.pending, h.updateNodes, hperm, hkeyed, ?_, ?_,
          fun ha => absurd ha hopen⟩
        · simp [SendLog.sent, h.total]
        · -- the context was ahead, those sent to are behind
          simp only [SendLog.sentTo, SendLog.sent, List.map_append, List.map_cons, List.map_nil]
          apply List.Nodup.append h.sentNodup (List.nodup_singleton _)
          intro i hi hi'
          rw [List.mem_singleton.mp hi'] at hi
          refine (List.nodup_append.mp (h.nodup hnodup)).2.2 _ (h.sentVisited _ hi) _ ?_ rfl
          simp [contexts]
        · intro i hi
          simp only [SendLog.sentTo, SendLog.sent, List.map_append, List.map_cons,
            List.map_nil, List.mem_append, List.mem_singleton] at hi
          rcases hi with hi | rfl
          · exact hgrow _ i hi
          · simp [contexts, Cursor.keep]

theorem SendReach.shape (hkeyed : KeyedByContext states) (hnodup : (contexts states).Nodup)
    (h : SendReach env states ctx log c todo) : SendShape states log c todo := by
  induction h with
  | start => exact .start hkeyed
  | step _ hstep ih => exact ih.step hnodup hstep

/-- As long as nothing was sent and nothing failed, nobody is skipped and whoever
is behind waits for a key. -/
def Quiet (log : SendLog) (c : Cursor) : Prop :=
  log.dispatched = [] → log.status.error = 0 → log.ctx.calledContract = [] ∧ c.bound = none ∧
    ∀ n ∈ c.visited, ∃ message, n.2.message = some message ∧ message.type = .KEY_LOCK

theorem Quiet.step (h : Quiet log c)
    (hstep : traverseStep (sendCallback env) n rest log c = .ok (log', c', rest')) :
    Quiet log' c' := by
  intro hnone herr
  rcases sendStep_cases hstep with ⟨hjump, rfl, -, -⟩ | ⟨-, hint, state, hsends, heq⟩
  · simp [Cursor.jumps, (h hnone herr).2.1] at hjump
  · cases hsends with
    | error => simp at herr
    | skip _ _ _ hmem =>
        rw [(h hnone herr).1] at hmem
        cases hmem
    | @wait message _ hmsg _ htype _ =>
        cases heq
        obtain ⟨hcalled, hbound, hvisited⟩ := h hnone herr
        refine ⟨hcalled, hbound, fun k hk => ?_⟩
        rcases List.mem_append.mp hk with hk | hk
        · exact hvisited k hk
        · rw [List.mem_singleton.mp hk]
          exact ⟨message, hmsg, htype⟩
    | erase =>
        cases heq
        exact h hnone herr
    | send => simp [SendLog.sent] at hnone

theorem SendReach.quiet (h : SendReach env states ctx log c todo) : Quiet log c := by
  induction h with
  | start => exact fun _ _ => ⟨rfl, rfl, by simp⟩
  | step _ hstep ih => exact ih.step hstep

/-! ### Replies -/

/-- The replies written so far into a node. -/
def applyReplies (rs : List (ContextID × Reply)) (n : Node) : Node :=
  rs.foldl (fun n p => Machine.storeAt p.1 p.2 n) n

theorem applyReplies_snoc (rs : List (ContextID × Reply)) (p : ContextID × Reply) (n : Node) :
    applyReplies (rs ++ [p]) n = Machine.storeAt p.1 p.2 (applyReplies rs n) := by
  simp [applyReplies]

/-- A reply touches only the message and the error of a state. -/
structure SameFrame (s t : ExecutiveState) : Prop where
  contextID : t.contextID = s.contextID
  callStack : t.callStack = s.callStack
  currentSeq : t.currentSeq = s.currentSeq
  skip : t.skip = s.skip

theorem storeReply_sameFrame (r : Reply) (s : ExecutiveState) : SameFrame s (storeReply r s) := by
  cases r <;> exact ⟨rfl, rfl, rfl, rfl⟩

theorem applyReplies_frame (rs : List (ContextID × Reply)) (n : Node) :
    (applyReplies rs n).1 = n.1 ∧ SameFrame n.2 (applyReplies rs n).2 := by
  induction rs using List.reverseRecOn with
  | nil => exact ⟨rfl, rfl, rfl, rfl, rfl⟩
  | append_singleton rs p ih =>
      rw [applyReplies_snoc]
      unfold Machine.storeAt
      split_ifs
      · have hframe := storeReply_sameFrame p.2 (applyReplies rs n).2
        exact ⟨ih.1, hframe.contextID.trans ih.2.contextID, hframe.callStack.trans ih.2.callStack,
          hframe.currentSeq.trans ih.2.currentSeq, hframe.skip.trans ih.2.skip⟩
      · exact ih

theorem storeAt_of_ne {i : ContextID} {r : Reply} {n : Node} (h : n.2.contextID ≠ i) :
    Machine.storeAt i r n = n := if_neg h

/-- Nodes without a reply stay as they are. -/
theorem applyReplies_of_notMem {rs : List (ContextID × Reply)} {n : Node}
    (h : n.2.contextID ∉ rs.map Prod.fst) : applyReplies rs n = n := by
  induction rs using List.reverseRecOn with
  | nil => rfl
  | append_singleton rs p ih =>
      simp only [List.map_append, List.mem_append, not_or, List.map_cons, List.map_nil,
        List.mem_singleton] at h
      rw [applyReplies_snoc, ih h.1, storeAt_of_ne h.2]

/-- With one reply for a context, it is what was written. -/
theorem applyReplies_of_mem {rs : List (ContextID × Reply)} (hnodup : (rs.map Prod.fst).Nodup)
    {n : Node} {r : Reply} (h : (n.2.contextID, r) ∈ rs) :
    applyReplies rs n = (n.1, storeReply r n.2) := by
  induction rs using List.reverseRecOn with
  | nil => cases h
  | append_singleton rs p ih =>
      simp only [List.map_append, List.map_cons, List.map_nil] at hnodup
      obtain ⟨hold, -, hdisj⟩ := List.nodup_append.mp hnodup
      rw [applyReplies_snoc]
      rcases List.mem_append.mp h with h | h
      · have hne : n.2.contextID ≠ p.1 :=
          hdisj _ (List.mem_map.mpr ⟨_, h, rfl⟩) _ (List.mem_singleton.mpr rfl)
        rw [ih hold h, storeAt_of_ne]
        rw [(storeReply_sameFrame r n.2).contextID]
        exact hne
      · obtain rfl := List.mem_singleton.mp h
        have hnot : n.2.contextID ∉ rs.map Prod.fst := fun hm =>
          hdisj _ hm _ (List.mem_singleton.mpr rfl) rfl
        rw [applyReplies_of_notMem hnot]
        exact if_pos rfl

theorem contexts_map_applyReplies (rs : List (ContextID × Reply)) (nodes : List Node) :
    contexts (nodes.map (applyReplies rs)) = contexts nodes := by
  simp [contexts, (applyReplies_frame rs _).2.contextID]

/-- The log with the counters moved by replies, and possibly by the end of the
traversal. -/
def SendLog.seen (log : SendLog) (rs : List (ContextID × Reply)) (allSended : Bool) : SendLog :=
  { log with status := { log.status with
      received := log.status.received + rs.length
      error := log.status.error + rs.countP fun p => p.2.failed
      allSended := log.status.allSended || allSended } }

/-- The traversal does not look at these counters. -/
theorem sendCallback_seen (log : SendLog) (rs : List (ContextID × Reply)) (b : Bool)
    (state : ExecutiveState) :
    sendCallback env (log.seen rs b) state =
      match sendCallback env log state with
      | .error f => .error f
      | .ok (hint, log', state') => .ok (hint, log'.seen rs b, state') := by
  have hctx : (log.seen rs b).ctx = log.ctx := rfl
  unfold sendCallback
  rw [hctx]
  rcases startBatchCallback env log.ctx state with f | action
  · rfl
  · cases action with
    | error => simp [SendLog.seen, Nat.add_right_comm]
    | skip state => rfl
    | wait ctx state => rfl
    | erase ctx => rfl
    | send ctx state dispatch => rfl

theorem traverseStep_seen (rs : List (ContextID × Reply)) (b : Bool) :
    traverseStep (sendCallback env) n rest (log.seen rs b) c =
      match traverseStep (sendCallback env) n rest log c with
      | .error f => .error f
      | .ok (log', c', rest') => .ok (log'.seen rs b, c', rest') := by
  unfold traverseStep
  split_ifs
  · rfl
  · rw [sendCallback_seen]
    rcases sendCallback env log n.2 with f | ⟨hint, log', state⟩ <;> rfl

end BcosScheduler
