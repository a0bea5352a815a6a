/-
BcosScheduler/Twins.lean

Two runs of `DMTExecute` that send the same messages.

In the one, some transactions have come back from `DAGExecute`: their first frame is
pushed and their message is a `SEND_BACK`.  In the other, they are as
`asyncExecute` made them.  Nodes of the two are twins: equal up to the flag
`enableDAG`, or of such a transaction, not sent yet.  `startBatch` makes the same
of both (`startBatchCallback_sentBack`), and the pass after replies files the one
again under the key the other keeps, so the maps stay twins key by key.
-/
import BcosScheduler.FramePass

namespace BcosScheduler

variable {env : BlockEnv} {ctx : SendContext} {log log₁ log₂ : SendLog} {s : ExecutiveState}
  {m : ExecutionMessage} {n k : Node} {sent : List ContextID} {nodes₁ nodes₂ : List Node}

/-! ### Twin nodes -/

/-- A first message whose type `startBatch` restores from a `SEND_BACK`. -/
structure Restorable (m : ExecutionMessage) : Prop where
  seq : m.seq = 0
  keyLocks : m.keyLocks = []
  type : m.type = if m.transactionHash ≠ 0 then .TXHASH else .MESSAGE

/-- The state with another flag. -/
def ExecutiveState.flagged (s : ExecutiveState) (flag : Bool) : ExecutiveState :=
  { s with enableDAG := flag }

/-- The state with its first frame pushed and its message sent back. -/
def ExecutiveState.sentBack (s : ExecutiveState) (m : ExecutionMessage) (flag : Bool) :
    ExecutiveState :=
  { s with enableDAG := flag
           callStack := [0]
           currentSeq := 1
           message := some { m with type := .SEND_BACK } }

/-- Nodes of the two runs under one key; `sent` are the contexts of the messages
sent so far. -/
inductive Twin (sent : List ContextID) : Node → Node → Prop
  | same (key : StateKey) (s : ExecutiveState) (flag : Bool) :
      Twin sent (key, s.flagged flag) (key, s)
  | sentBack {s : ExecutiveState} {m : ExecutionMessage} (flag : Bool) : s.contextID ∉ sent →
      s.callStack = [] → s.currentSeq = 0 → s.message = some m → Restorable m →
      Twin sent (toLex (m.toAddr, s.contextID), s.sentBack m flag)
        (toLex (m.toAddr, s.contextID), s)

theorem Twin.key (h : Twin sent n k) : n.1 = k.1 := by
  cases h <;> rfl

theorem Twin.contextID (h : Twin sent n k) : n.2.contextID = k.2.contextID := by
  cases h <;> rfl

/-- Other contexts may have been sent to. -/
theorem Twin.mono {sent' : List ContextID} (h : Twin sent n k)
    (hsub : n.2.contextID ∈ sent' → n.2.contextID ∈ sent) : Twin sent' n k := by
  cases h with
  | same key s flag => exact .same key s flag
  | sentBack flag hnot hstack hseq hmsg hm =>
      exact .sentBack flag (fun hmem => hnot (hsub hmem)) hstack hseq hmsg hm

/-- Who was sent to has the same frames. -/
theorem Twin.frames (h : Twin sent n k) (hsent : n.2.contextID ∈ sent) :
    n.2.callStack = k.2.callStack ∧ n.2.currentSeq = k.2.currentSeq := by
  cases h with
  | same => exact ⟨rfl, rfl⟩
  | sentBack _ hnot => exact absurd hsent hnot

/-! ### The callback of startBatch -/

/-- The action with another flag in the state. -/
def SendAction.flagged (flag : Bool) : SendAction → SendAction
  | .error => .error
  | .skip state => .skip (state.flagged flag)
  | .wait ctx state => .wait ctx (state.flagged flag)
  | .erase ctx => .erase ctx
  | .send ctx state dispatch => .send ctx (state.flagged flag) dispatch

/-- The flag is not looked at. -/
theorem startBatchCallback_flagged (env : BlockEnv) (ctx : SendContext) (s : ExecutiveState)
    (flag : Bool) : startBatchCallback env ctx (s.flagged flag)
      = (startBatchCallback env ctx s).map (SendAction.flagged flag) := by
  unfold startBatchCallback
  by_cases herr : s.error.isSome = true
  · have herr' : (s.flagged flag).error.isSome = true := herr
    rw [if_pos herr, if_pos herr']
    rfl
  · have herr' : ¬ (s.flagged flag).error.isSome = true := herr
    have hsame : (s.flagged flag).message = s.message := rfl
    rw [if_neg herr, if_neg herr', hsame]
    rcases hmsg : s.message with _ | message
    · rfl
    · dsimp only
      by_cases hcalled : message.toAddr ≠ "" ∧ message.toAddr ∈ ctx.calledContract
      · rw [if_pos hcalled, if_pos hcalled]
        rfl
      · rw [if_neg hcalled, if_neg hcalled]
        have hstack : (s.flagged flag).callStack = s.callStack := rfl
        cases message.type with
        | KEY_LOCK =>
            dsimp only
            rcases hacq : (ctx.keyLocks.acquireKeyLock message.fromAddr message.keyLockAcquired
              s.contextID message.seq).2 with _ | _
            · simp [hacq, ExecutiveState.flagged, SendAction.flagged, Except.map]
            · simp [hacq, ExecutiveState.flagged, SendAction.flagged, Except.map, dispatchMessage]
        | FINISHED =>
            dsimp only
            rw [hstack]
            rcases s.callStack with _ | ⟨returned, _ | ⟨top, rest⟩⟩ <;> rfl
        | REVERT =>
            dsimp only
            rw [hstack]
            rcases s.callStack with _ | ⟨returned, _ | ⟨top, rest⟩⟩ <;> rfl
        | _ => rfl

/-- A transaction that was sent back is treated as if it had not been sent. -/
theorem startBatchCallback_sentBack (env : BlockEnv) (ctx : SendContext) (flag : Bool)
    (hstack : s.callStack = []) (hseq : s.currentSeq = 0) (hmsg : s.message = some m)
    (hm : Restorable m) :
    (startBatchCallback env ctx (s.sentBack m flag) = .ok .error ∧
      startBatchCallback env ctx s = .ok .error) ∨
    (startBatchCallback env ctx (s.sentBack m flag)
        = .ok (.skip { s.sentBack m flag with skip := true }) ∧
      startBatchCallback env ctx s = .ok (.skip { s with skip := true })) ∨
    ∃ ctx' state dispatch, dispatch.contextID = s.contextID ∧
      startBatchCallback env ctx (s.sentBack m flag)
        = .ok (.send ctx' (state.flagged flag) dispatch) ∧
      startBatchCallback env ctx s = .ok (.send ctx' state dispatch) := by
  rcases herr : s.error with _ | e
  · by_cases hcalled : m.toAddr ≠ "" ∧ m.toAddr ∈ ctx.calledContract
    · refine Or.inr (Or.inl ⟨?_, ?_⟩)
      · simp [startBatchCallback, ExecutiveState.sentBack, herr, hcalled]
      · simp [startBatchCallback, herr, hmsg, hcalled]
    · -- both ways lead to the same message
      have hnumbered : { withTarget env m s.contextID 0 with seq := 0 }
          = withTarget env m s.contextID 0 := by
        unfold withTarget
        split_ifs
        · rw [← hm.seq]
        · rw [← hm.seq]
      have hfresh : startBatchCallback env ctx s = .ok (dispatchMessage ctx
          { s with callStack := [0], currentSeq := 1 } (withTarget env m s.contextID 0)
          (m.toAddr = "")) := by
        have htype : m.type = .TXHASH ∨ m.type = .MESSAGE := by
          rw [hm.type]
          split_ifs <;> simp
        unfold startBatchCallback
        rw [herr, hmsg]
        simp only [Option.isSome_none, Bool.false_eq_true, if_false, if_neg hcalled]
        rcases htype with htype | htype <;> rw [htype] <;> simp only [hseq, hstack] <;>
          rw [← hnumbered] <;> rfl
      have hback : startBatchCallback env ctx (s.sentBack m flag) = .ok (dispatchMessage ctx
          (s.sentBack m flag) (withTarget env m s.contextID 0) (m.toAddr = "")) := by
        have hrestored : { m with
            type := if m.transactionHash ≠ 0 then .TXHASH else .MESSAGE } = m := by
          rw [← hm.type]
        unfold startBatchCallback ExecutiveState.sentBack
        rw [herr]
        simp only [Option.isSome_none, Bool.false_eq_true, if_false, if_neg hcalled]
        rw [hrestored, hm.seq]
      refine Or.inr (Or.inr ⟨_, _, _, ?_, ?_, hfresh⟩)
      · rfl
      · exact hback
  · refine Or.inl ⟨?_, ?_⟩
    · simp [startBatchCallback, ExecutiveState.sentBack, herr]
    · simp [startBatchCallback, herr]

/-- The logs are equal but for the states of finished transactions. -/
structure SameLog (log₁ log₂ : SendLog) : Prop where
  ctx : log₁.ctx = log₂.ctx
  status : log₁.status = log₂.status
  dispatched : log₁.dispatched = log₂.dispatched

/-- What the callback does to twins, when the earlier batches sent to `before`. -/
inductive SendTwin (before : List ContextID) (log : SendLog) (n k : Node) :
    Except Fault (TraverseHint × SendLog × ExecutiveState) →
    Except Fault (TraverseHint × SendLog × ExecutiveState) → Prop
  | error (f : Fault) : SendTwin before log n k (.error f) (.error f)
  | ok {hint : TraverseHint} {log₁ log₂ : SendLog} {s t : ExecutiveState} : SameLog log₁ log₂ →
      Twin (before ++ log₁.sentTo) (n.1, s) (k.1, t) → hint ≠ .UPDATE →
      (∀ i ∈ log₁.sentTo, i ∈ log.sentTo ∨ i = n.2.contextID) →
      SendTwin before log n k (.ok (hint, log₁, s)) (.ok (hint, log₂, t))

theorem SameLog.withCtx (h : SameLog log₁ log₂) (ctx : SendContext) :
    SameLog { log₁ with ctx := ctx } { log₂ with ctx := ctx } :=
  ⟨rfl, h.status, h.dispatched⟩

theorem startBatchCallback_contextID {ctx' : SendContext} {state : ExecutiveState} {d : Dispatch}
    (h : startBatchCallback env ctx s = .ok (.send ctx' state d)) : d.contextID = s.contextID := by
  rcases startBatchCallback_cases h with ⟨-, heq⟩ | ⟨-, message, -,
    ⟨-, -, heq⟩ | ⟨-, ⟨-, -, heq⟩ | ⟨-, -, heq⟩ | ⟨callStack, currentSeq, keyLocks, message',
      created, -, heq⟩⟩⟩
  all_goals cases heq
  rfl

theorem mem_sentTo_concat {log' : SendLog} {d : Dispatch} {i j : ContextID}
    (hdisp : log'.dispatched = log.dispatched ++ [d]) (hctx : d.contextID = j)
    (hi : i ∈ log'.sentTo) : i ∈ log.sentTo ∨ i = j := by
  simp only [SendLog.sentTo, hdisp, List.map_append, List.mem_append, List.map_cons, List.map_nil,
    List.mem_singleton] at hi
  rcases hi with hi | rfl
  · exact Or.inl hi
  · exact Or.inr hctx

theorem sendCallback_twin (env : BlockEnv) (hlog : SameLog log₁ log₂)
    (h : Twin (sent ++ log₁.sentTo) n k) :
    SendTwin sent log₁ n k (sendCallback env log₁ n.2) (sendCallback env log₂ k.2) := by
  cases h with
  | same key s flag =>
      unfold sendCallback
      rw [hlog.ctx, startBatchCallback_flagged]
      rcases hcall : startBatchCallback env log₂.ctx s with f | action
      · exact .error f
      · cases action with
        | error =>
            refine .ok ⟨rfl, ?_, hlog.dispatched⟩ (.same key s flag) (by simp)
              fun i hi => Or.inl hi
            rw [hlog.status]
        | skip state => exact .ok hlog (.same key state flag) (by simp) fun i hi => Or.inl hi
        | wait ctx state =>
            exact .ok (hlog.withCtx ctx) (.same key state flag) (by simp) fun i hi => Or.inl hi
        | erase ctx =>
            exact .ok ⟨rfl, hlog.status, hlog.dispatched⟩ (.same key s flag) (by simp)
              fun i hi => Or.inl hi
        | send ctx state dispatch =>
            have hctx := startBatchCallback_contextID hcall
            refine .ok ⟨rfl, ?_, ?_⟩ (.same key state flag) (by simp) fun i hi => ?_
            · rw [hlog.status]
            · rw [hlog.dispatched]
            · exact mem_sentTo_concat rfl hctx hi
  | @sentBack s m flag hnot hstack hseq hmsg hm =>
      unfold sendCallback
      rw [hlog.ctx]
      rcases startBatchCallback_sentBack env log₂.ctx flag hstack hseq hmsg hm with
        ⟨hn, hk⟩ | ⟨hn, hk⟩ | ⟨ctx, state, dispatch, hctx, hn, hk⟩
      · rw [hn, hk]
        refine .ok ⟨rfl, ?_, hlog.dispatched⟩ (.sentBack flag hnot hstack hseq hmsg hm)
          (by simp) fun i hi => Or.inl hi
        rw [hlog.status]
      · rw [hn, hk]
        exact .ok hlog (.sentBack (s := { s with skip := true }) flag hnot hstack hseq hmsg hm)
          (by simp) fun i hi => Or.inl hi
      · rw [hn, hk]
        refine .ok ⟨rfl, ?_, ?_⟩ (.same _ state flag) (by simp) fun i hi => ?_
        · rw [hlog.status]
        · rw [hlog.dispatched]
        · exact mem_sentTo_concat rfl hctx hi

/-! ### Passes -/

/-- What the callback of a pass does to related nodes; the second one may be filed
again where the first one stays. -/
inductive PassTwin {σ : Type*} (R : Node → Node → Prop) (n k : Node) :
    Except Fault (TraverseHint × σ × ExecutiveState) →
    Except Fault (TraverseHint × σ × ExecutiveState) → Prop
  | error (f : Fault) : PassTwin R n k (.error f) (.error f)
  | ok {hint : TraverseHint} {d : σ} {s t : ExecutiveState} : R (n.1, s) (k.1, t) →
      hint ≠ .DELETE → (hint = .UPDATE → R (s.updateKey, s) (t.updateKey, t)) →
      PassTwin R n k (.ok (hint, d, s)) (.ok (hint, d, t))
  | update {d : σ} {s t : ExecutiveState} : R (n.1, s) (t.updateKey, t) →
      PassTwin R n k (.ok (.PASS, d, s)) (.ok (.UPDATE, d, t))

/-- The nodes behind a cursor, with their new keys. -/
def Cursor.filed (c : Cursor) : List Node :=
  c.updateNodes.map (fun n => (n.2.updateKey, n.2)) ++ c.visited

/-- Cursors of two passes: the nodes behind correspond, in some order. -/
structure CursorTwin (R : Node → Node → Prop) (c₁ c₂ : Cursor) : Prop where
  bound : c₁.bound = c₂.bound
  filed : ∃ l₁ l₂, c₁.filed.Perm l₁ ∧ c₂.filed.Perm l₂ ∧ List.Forall₂ R l₁ l₂

section Passes

variable {σ : Type*} {R : Node → Node → Prop} {c₁ c₂ c₁' c₂' : Cursor}

/-- One more pair of nodes behind. -/
theorem CursorTwin.snoc (h : CursorTwin R c₁ c₂) {more₁ more₂ : List Node}
    (hmore : List.Forall₂ R more₁ more₂) (hbound : c₁'.bound = c₂'.bound)
    (h₁ : c₁'.filed.Perm (c₁.filed ++ more₁)) (h₂ : c₂'.filed.Perm (c₂.filed ++ more₂)) :
    CursorTwin R c₁' c₂' := by
  obtain ⟨l₁, l₂, hp₁, hp₂, hR⟩ := h.filed
  exact ⟨hbound, l₁ ++ more₁, l₂ ++ more₂, h₁.trans (hp₁.append_right _),
    h₂.trans (hp₂.append_right _), List.rel_append hR hmore⟩

theorem filed_keep (c : Cursor) (more : List Node) (bound : Option StateKey) :
    (Cursor.filed { c with visited := c.visited ++ more, bound := bound }).Perm
      (c.filed ++ more) := by
  simp [Cursor.filed]

theorem filed_update (c : Cursor) (n : Node) :
    (Cursor.filed { c with updateNodes := n :: c.updateNodes }).Perm
      (c.filed ++ [(n.2.updateKey, n.2)]) := by
  simp only [Cursor.filed, List.map_cons, List.cons_append]
  exact (List.perm_append_singleton _ _).symm

/-- Two passes over related nodes go on alike. -/
theorem traverseFrom_twin {callback : TraverseCallback σ} (hkey : ∀ {n k}, R n k → n.1 = k.1)
    (hcall : ∀ d {n k}, R n k → PassTwin R n k (callback d n.2) (callback d k.2)) :
    ∀ {todo₁ todo₂ : List Node}, List.Forall₂ R todo₁ todo₂ → ∀ {d : σ} {c₁ c₂ : Cursor},
      CursorTwin R c₁ c₂ →
      (∃ f, traverseFrom callback todo₁ d c₁ = .error f ∧
        traverseFrom callback todo₂ d c₂ = .error f) ∨
      ∃ d' c₁' c₂', traverseFrom callback todo₁ d c₁ = .ok (d', c₁') ∧
        traverseFrom callback todo₂ d c₂ = .ok (d', c₂') ∧ CursorTwin R c₁' c₂' := by
  intro todo₁ todo₂ htodo
  induction htodo with
  | nil => exact fun {d c₁ c₂} hc => Or.inr ⟨d, c₁, c₂, rfl, rfl, hc⟩
  | @cons n k rest₁ rest₂ hnk hrest ih =>
      intro d c₁ c₂ hc
      rw [traverseFrom_cons, traverseFrom_cons]
      have hjumps : c₂.jumps k = c₁.jumps n := by
        unfold Cursor.jumps
        rw [hc.bound, hkey hnk]
      rcases hjump : c₁.jumps n with _ | _
      · have htwin := hcall d hnk
        generalize hr₁ : callback d n.2 = r₁ at htwin
        generalize hr₂ : callback d k.2 = r₂ at htwin
        cases htwin with
        | error f =>
            refine Or.inl ⟨f, ?_, ?_⟩
            · simp [traverseStep, hjump, hr₁]
            · simp [traverseStep, hjumps, hjump, hr₂]
        | @ok hint d' s t hR hdel hupd =>
            simp only [traverseStep, hjumps, hjump, hr₁, hr₂, Bool.false_eq_true, if_false]
            cases hint with
            | PASS => exact ih (hc.snoc (.cons hR .nil) hc.bound (filed_keep ..) (filed_keep ..))
            | DELETE => exact absurd rfl hdel
            | SKIP =>
                refine ih (hc.snoc (.cons hR .nil) ?_ (filed_keep ..) (filed_keep ..))
                simp only [Cursor.advance, hkey hnk]
            | UPDATE =>
                exact ih (hc.snoc (.cons (hupd rfl) .nil) hc.bound (filed_update ..)
                  (filed_update ..))
            | END =>
                exact Or.inr ⟨d', _, _, rfl, rfl, hc.snoc (.cons hR hrest) hc.bound
                  (filed_keep ..) (filed_keep ..)⟩
        | @update d' s t hR =>
            simp only [traverseStep, hjumps, hjump, hr₁, hr₂, Bool.false_eq_true, if_false]
            exact ih (hc.snoc (.cons hR .nil) hc.bound (filed_keep ..) (filed_update ..))
      · simp only [traverseStep, hjumps, hjump, if_true]
        exact ih (hc.snoc (.cons hnk .nil) hc.bound (filed_keep ..) (filed_keep ..))

/-- The maps after two passes correspond key by key. -/
theorem runPass_twin {callback : TraverseCallback PassContext}
    (hkey : ∀ {n k}, R n k → n.1 = k.1)
    (hcall : ∀ d {n k}, R n k → PassTwin R n k (callback d n.2) (callback d k.2))
    (hctx : ∀ {d state hint d' state'}, callback d state = .ok (hint, d', state') →
      state'.contextID = state.contextID ∧ hint ≠ .DELETE)
    (hupdates : UpdatesMessages callback)
    (h : List.Forall₂ R nodes₁ nodes₂) (hasc : OrderedMap.Ascending nodes₁)
    (hd₁ : DistinctContexts nodes₁) (hd₂ : DistinctContexts nodes₂) (keyLocks : GraphKeyLocks) :
    (∃ f, runPass callback nodes₁ keyLocks = .fault f ∧
      runPass callback nodes₂ keyLocks = .fault f) ∨
    ∃ states₁ states₂ keyLocks' victims,
      runPass callback nodes₁ keyLocks = .next states₁ keyLocks' victims ∧
      runPass callback nodes₂ keyLocks = .next states₂ keyLocks' victims ∧
      List.Forall₂ R states₁ states₂ ∧ OrderedMap.Ascending states₁ := by
  have hstart : CursorTwin R {} {} := ⟨rfl, [], [], .nil, .nil, .nil⟩
  rcases traverseFrom_twin hkey hcall h (d := { keyLocks := keyLocks }) hstart with
    ⟨f, h₁, h₂⟩ | ⟨d, c₁, c₂, h₁, h₂, hc⟩
  · exact Or.inl ⟨f, by simp [runPass, traverseExecutive, h₁],
      by simp [runPass, traverseExecutive, h₂]⟩
  · have hrun₁ : traverseExecutive callback nodes₁ { keyLocks := keyLocks }
        = .ok (reinsert c₁.updateNodes c₁.visited, d) := by
      rw [traverseExecutive_eq hupdates, h₁]
      rfl
    have hrun₂ : traverseExecutive callback nodes₂ { keyLocks := keyLocks }
        = .ok (reinsert c₂.updateNodes c₂.visited, d) := by
      rw [traverseExecutive_eq hupdates, h₂]
      rfl
    have hasc₂ : OrderedMap.Ascending nodes₂ :=
      hasc.of_keys (by rw [OrderedMap.keys_eq_of_forall₂ hkey h])
    obtain ⟨hperm₁, hkeyed₁⟩ := traverseFrom_contexts hctx hd₁.keyed h₁
    obtain ⟨hperm₂, hkeyed₂⟩ := traverseFrom_contexts hctx hd₂.keyed h₂
    have hput₁ := reinsert_perm c₁.updateNodes hkeyed₁ (hperm₁.nodup_iff.mpr hd₁.nodup)
    have hput₂ := reinsert_perm c₂.updateNodes hkeyed₂ (hperm₂.nodup_iff.mpr hd₂.nodup)
    obtain ⟨l₁, l₂, hl₁, hl₂, hR⟩ := hc.filed
    have hsorted := traverseExecutive_ascending hasc hrun₁
    refine Or.inr ⟨reinsert c₁.updateNodes c₁.visited, reinsert c₂.updateNodes c₂.visited,
      d.keyLocks, d.victims, ?_, ?_, ?_, hsorted⟩
    · simp only [runPass, hrun₁]
    · simp only [runPass, hrun₂]
    · exact OrderedMap.Ascending.forall₂ hkey hR hsorted (traverseExecutive_ascending hasc₂ hrun₂)
        (hput₁.trans hl₁) (hput₂.trans hl₂)

end Passes

/-- The pass does not look at the flag. -/
theorem keyLockCallback_flagged (d : PassContext) (s : ExecutiveState) (flag : Bool) :
    keyLockCallback d (s.flagged flag)
      = (keyLockCallback d s).map fun r => (r.1, r.2.1, r.2.2.flagged flag) := by
  unfold keyLockCallback
  have hskip : (s.flagged flag).skip = s.skip := rfl
  have hsame : (s.flagged flag).message = s.message := rfl
  rw [hskip, hsame]
  split_ifs
  · rfl
  · rcases s.message with _ | message
    · rfl
    · dsimp only
      rcases htype : message.type
      case MESSAGE =>
          rcases hacq : d.keyLocks.batchAcquireKeyLock message.fromAddr message.keyLocks
            message.contextID message.seq with e | g <;> rfl
      case KEY_LOCK =>
          rcases hacq : d.keyLocks.batchAcquireKeyLock message.fromAddr message.keyLocks
            message.contextID message.seq with e | g <;> rfl
      all_goals rfl

theorem keyLockCallback_twin (d : PassContext) (h : Twin sent n k) :
    PassTwin (Twin sent) n k (keyLockCallback d n.2) (keyLockCallback d k.2) := by
  cases h with
  | same key s flag =>
      rw [keyLockCallback_flagged]
      rcases hcall : keyLockCallback d s with f | ⟨hint, d', t⟩
      · exact .error f
      · exact .ok (.same key t flag) (keyLockCallback_contextID hcall).2 fun _ =>
          .same t.updateKey t flag
  | @sentBack s m flag hnot hstack hseq hmsg hm =>
      have hkey : ExecutiveState.updateKey s = toLex (m.toAddr, s.contextID) := by
        simp [ExecutiveState.updateKey, hmsg]
      rcases hskip : s.skip with _ | _
      · have hback : keyLockCallback d (s.sentBack m flag) = .ok (.PASS, d, s.sentBack m flag) := by
          simp [keyLockCallback, ExecutiveState.sentBack, hskip]
        rw [hback]
        by_cases htype : m.type = .MESSAGE
        · -- without keys to take, the node is only filed again
          have hfresh : keyLockCallback d s = .ok (.UPDATE, d, s) := by
            simp [keyLockCallback, hskip, hmsg, htype, hm.keyLocks,
              GraphKeyLocks.batchAcquireKeyLock]
          rw [hfresh]
          refine .update ?_
          rw [hkey]
          exact .sentBack flag hnot hstack hseq hmsg hm
        · have htype' : m.type = .TXHASH := by
            have h := hm.type
            split_ifs at h
            · exact h
            · exact absurd h htype
          have hfresh : keyLockCallback d s = .ok (.PASS, d, s) := by
            simp [keyLockCallback, hskip, hmsg, htype']
          rw [hfresh]
          exact .ok (.sentBack flag hnot hstack hseq hmsg hm) (by simp) (by simp)
      · rw [keyLockCallback_skip d s hskip, keyLockCallback_skip d (s.sentBack m flag) hskip]
        refine .ok ?_ (by simp) (by simp)
        exact .sentBack (s := { s with skip := false }) flag hnot hstack hseq hmsg hm

/-- Equal but for the flag. -/
inductive SameNode : Node → Node → Prop
  | mk (key : StateKey) (s : ExecutiveState) (flag : Bool) : SameNode (key, s.flagged flag) (key, s)

theorem SameNode.twin (h : SameNode n k) : Twin sent n k := by
  cases h
  exact .same ..

theorem SameNode.key (h : SameNode n k) : n.1 = k.1 := by
  cases h
  rfl

/-- When everybody waits for a key, nobody has been sent back. -/
theorem sameNodes_of_waiting (h : List.Forall₂ (Twin sent) nodes₁ nodes₂)
    (hwait : ∀ n ∈ nodes₁, ∃ message, n.2.message = some message ∧ message.type = .KEY_LOCK) :
    List.Forall₂ SameNode nodes₁ nodes₂ := by
  induction h with
  | nil => exact .nil
  | cons hnk _ ih =>
      refine .cons ?_ (ih fun n hn => hwait n (List.mem_cons_of_mem _ hn))
      cases hnk with
      | same key s flag => exact .mk key s flag
      | sentBack =>
          obtain ⟨message, hmsg, htype⟩ := hwait _ (List.mem_cons_self ..)
          obtain rfl := Option.some.inj hmsg
          cases htype

theorem deadLockCallback_twin (d : PassContext) (h : SameNode n k) :
    PassTwin SameNode n k (deadLockCallback d n.2) (deadLockCallback d k.2) := by
  cases h with
  | mk key s flag =>
      have hflagged : deadLockCallback d (s.flagged flag)
          = (deadLockCallback d s).map fun r => (r.1, r.2.1, r.2.2.flagged flag) := by
        unfold deadLockCallback
        have hskip : (s.flagged flag).skip = s.skip := rfl
        have hsame : (s.flagged flag).message = s.message := rfl
        have hctx : (s.flagged flag).contextID = s.contextID := rfl
        rw [hskip, hsame, hctx]
        split_ifs
        · rfl
        · rcases s.message with _ | message <;> rfl
        · rfl
      rw [hflagged]
      rcases hcall : deadLockCallback d s with f | ⟨hint, d', t⟩
      · exact .error f
      · exact .ok (.mk key t flag) (deadLockCallback_contextID hcall).2 fun _ =>
          .mk t.updateKey t flag

end BcosScheduler
