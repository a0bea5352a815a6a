/-
BcosScheduler/FailingReply.lean

A reply that is an error, or no message at all, stops the block.

The message of a state is moved out when it is sent and comes back with a good
reply only.  So a batch starts with a message in every state (`Visitable`) because
the one before it has had good replies only: a failed reply is counted, and a
batch with a failed reply ends `DMTExecute`.
-/
import BcosScheduler.FramePass
import BcosScheduler.DagPath

namespace BcosScheduler

variable {env : BlockEnv} {executors : Executors} {staticCall : Bool} {states₀ states : List Node}
  {ctx₀ ctx : SendContext} {history : List BatchLog} {log log' : SendLog} {c c' : Cursor}
  {n : Node} {todo rest rest' : List Node} {rs : List (ContextID × Reply)}
  {state state' : ExecutiveState} {hint : TraverseHint}

/-! ### Messages are there -/

/-- A state that can be visited: no error, and a message, which is a request
before the first frame. -/
structure Visitable (state : ExecutiveState) : Prop where
  error : state.error = none
  message : ∃ message, state.message = some message ∧
    (state.callStack = [] → message.type = .MESSAGE ∨ message.type = .TXHASH)

/-- A state whose message is with an executor. -/
structure MovedOut (state : ExecutiveState) : Prop where
  error : state.error = none
  message : state.message = none
  framed : state.callStack ≠ []

theorem Visitable.hasMessage (h : Visitable state) : state.message ≠ none := by
  obtain ⟨message, hmsg, -⟩ := h.message
  simp [hmsg]

/-- The callback of `startBatch` does not fail on such a state. -/
theorem Visitable.visit_ok (h : Visitable n.2) (rest : List Node) (log : SendLog) (c : Cursor) :
    ∃ r, traverseStep (sendCallback env) n rest log c = .ok r := by
  obtain ⟨message, hmsg, hfirst⟩ := h.message
  have hstack : message.type = .FINISHED ∨ message.type = .REVERT → n.2.callStack ≠ [] := by
    intro htype hnil
    rcases hfirst hnil with hreq | hreq <;> rcases htype with htype | htype
    all_goals
      rw [hreq] at htype
      cases htype
  obtain ⟨r, hcall⟩ : ∃ r, sendCallback env log n.2 = .ok r := sendCallback_ok hmsg hstack
  unfold traverseStep
  split_ifs
  · exact ⟨_, rfl⟩
  · rw [hcall]
    exact ⟨_, rfl⟩

/-- A state is sent with a frame. -/
theorem Visitable.prepares (h : Visitable state) {ctx : SendContext}
    {message message' : ExecutionMessage} {callStack : List Seq} {currentSeq : Seq} {keyLocks : GraphKeyLocks} {created : Bool}
    (hmsg : state.message = some message)
    (hprep : Prepares env ctx state message callStack currentSeq keyLocks message' created) :
    callStack ≠ [] := by
  obtain ⟨message₁, hmsg₁, hfirst⟩ := h.message
  obtain rfl := Option.some.inj (hmsg.symm.trans hmsg₁)
  have hframe : message.type ≠ .MESSAGE → message.type ≠ .TXHASH → state.callStack ≠ [] :=
    fun hmessage htxhash hnil => (hfirst hnil).elim hmessage htxhash
  cases hprep with
  | push => simp
  | pop => simp
  | revertKeyLock htype => exact hframe (by simp [htype]) (by simp [htype])
  | retry htype => exact hframe (by simp [htype]) (by simp [htype])
  | sendBack htype => exact hframe (by simp [htype]) (by simp [htype])

/-- In the sending traversal. -/
structure VisitableInv (log : SendLog) (c : Cursor) (todo : List Node) : Prop where
  ahead : ∀ n ∈ todo, Visitable n.2
  behind : ∀ n ∈ c.visited, (Visitable n.2 ∧ n.2.contextID ∉ log.sentTo) ∨
    MovedOut n.2 ∧ n.2.contextID ∈ log.sentTo
  noError : log.status.error = 0

/-- A node that stays behind with its message. -/
theorem VisitableInv.leave (h : VisitableInv log c (n :: rest)) (hnew : n.2.contextID ∉ log.sentTo)
    {state : ExecutiveState} (hready : Visitable state) (hctx : state.contextID = n.2.contextID)
    (hsent : log'.sentTo = log.sentTo) (herror : log'.status.error = log.status.error)
    (hbehind : c'.visited = c.visited ++ [(n.1, state)]) : VisitableInv log' c' rest := by
  refine ⟨fun k hk => h.ahead k (List.mem_cons_of_mem n hk), fun k hk => ?_,
    herror.trans h.noError⟩
  rw [hsent]
  rw [hbehind] at hk
  rcases List.mem_append.mp hk with hk | hk
  · exact h.behind k hk
  · rw [List.mem_singleton.mp hk]
    exact Or.inl ⟨hready, by rw [hctx]; exact hnew⟩

theorem VisitableInv.step (h : VisitableInv log c (n :: rest))
    (hshape : SendShape states log c (n :: rest)) (hnodup : (contexts states).Nodup)
    (hstep : traverseStep (sendCallback env) n rest log c = .ok (log', c', rest')) :
    VisitableInv log' c' rest' := by
  have hready := h.ahead n (by simp)
  -- a node ahead was not sent to, its context is not that of a node behind
  have hdistinct := hshape.nodup hnodup
  have hnew : n.2.contextID ∉ log.sentTo := fun hmem =>
    (List.nodup_append.mp hdistinct).2.2 _ (hshape.sentVisited _ hmem) _ (by simp [contexts]) rfl
  rcases sendStep_cases hstep with ⟨-, rfl, rfl, rfl⟩ | ⟨-, hint, state, hsends, heq⟩
  · exact h.leave hnew hready rfl rfl rfl rfl
  · cases hsends with
    | error herr =>
        rw [hready.error] at herr
        cases herr
    | skip =>
        cases heq
        have hskipped : Visitable { n.2 with skip := true } := ⟨hready.error, hready.message⟩
        exact h.leave hnew hskipped rfl rfl rfl rfl
    | wait =>
        cases heq
        exact h.leave hnew hready rfl rfl rfl rfl
    | erase =>
        cases heq
        exact ⟨fun k hk => h.ahead k (List.mem_cons_of_mem n hk), h.behind, h.noError⟩
    | @send message message' callStack currentSeq keyLocks created _ hmsg _ hprep =>
        cases heq
        have hsent : (log.sent keyLocks n.2.contextID message' created).sentTo
            = log.sentTo ++ [n.2.contextID] := by
          simp [SendLog.sentTo, SendLog.sent]
        refine ⟨fun k hk => h.ahead k (List.mem_cons_of_mem n hk), fun k hk => ?_, h.noError⟩
        rw [hsent]
        rcases List.mem_append.mp hk with hk | hk
        · rcases h.behind k hk with ⟨hk_ready, hk_new⟩ | ⟨hout, hmem⟩
          · refine Or.inl ⟨hk_ready, fun hmem => ?_⟩
            rcases List.mem_append.mp hmem with hmem | hmem
            · exact hk_new hmem
            · exact (List.nodup_append.mp hdistinct).2.2 k.2.contextID
                (List.mem_map.mpr ⟨k, hk, rfl⟩) n.2.contextID (by simp [contexts])
                (List.mem_singleton.mp hmem)
          · exact Or.inr ⟨hout, List.mem_append_left _ hmem⟩
        · rw [List.mem_singleton.mp hk]
          exact Or.inr ⟨⟨hready.error, rfl, hready.prepares hmsg hprep⟩, by simp⟩

theorem SendReach.visitableInv (hd : DistinctContexts states) (hready : ∀ n ∈ states, Visitable n.2)
    (h : SendReach env states ctx log c todo) : VisitableInv log c todo := by
  induction h with
  | start => exact ⟨hready, by simp, rfl⟩
  | step hreach hstep ih => exact ih.step (hreach.shape hd.keyed hd.nodup) hd.nodup hstep

/-- The sending traversal does not fail. -/
theorem SendFault.not_visitable {f : Fault} (hd : DistinctContexts states)
    (hready : ∀ n ∈ states, Visitable n.2) : ¬ SendFault env states ctx log f := by
  rintro ⟨c, n, rest, hreach, hfail⟩
  obtain ⟨r, hok⟩ := ((hreach.visitableInv hd hready).ahead n (by simp)).visit_ok rest log c
  rw [hok] at hfail
  cases hfail

/-! ### Replies bring them back -/

/-- After good replies every state has a message again. -/
theorem VisitableInv.replied (h : VisitableInv log c []) (hnodup : log.sentTo.Nodup)
    (hans : Answers executors history log rs) (hgood : ∀ p ∈ rs, p.2.failed = false) :
    ∀ n ∈ c.visited.map (applyReplies rs), Visitable n.2 := by
  intro k hk
  obtain ⟨n, hn, rfl⟩ := List.mem_map.mp hk
  rcases h.behind n hn with ⟨hready, hnew⟩ | ⟨hout, hsent⟩
  · rw [applyReplies_of_notMem fun hmem => hnew (hans.perm.mem_iff.mp hmem)]
    exact hready
  · obtain ⟨⟨i, r⟩, hp, hi⟩ := List.mem_map.mp (hans.perm.mem_iff.mpr hsent)
    obtain rfl : i = n.2.contextID := hi
    rw [applyReplies_of_mem (hans.perm.nodup_iff.mpr hnodup) hp]
    have hr := hgood _ hp
    cases r with
    | error e => cases hr
    | null => cases hr
    | message m => exact ⟨hout.error, m, rfl, fun hnil => absurd hnil hout.framed⟩

theorem keyLockCallback_visitable {s s' : PassContext} (h : Visitable state)
    (hcall : keyLockCallback s state = .ok (hint, s', state')) : Visitable state' := by
  obtain ⟨⟨skip, rfl⟩, -⟩ := keyLockCallback_keeps hcall
  exact ⟨h.error, h.message⟩

/-- The pass turns a state with a frame back. -/
theorem deadLockCallback_visitable {s s' : PassContext} (h : Visitable state ∧ state.callStack ≠ [])
    (hcall : deadLockCallback s state = .ok (hint, s', state')) :
    Visitable state' ∧ state'.callStack ≠ [] := by
  rcases deadLockCallback_cases hcall with
    ⟨-, -, rfl⟩ | ⟨message, hmsg, -, -, rfl⟩ | ⟨-, -, rfl⟩
  · exact ⟨⟨h.1.error, h.1.message⟩, h.2⟩
  · exact ⟨⟨h.1.error, _, rfl, fun hnil => absurd hnil h.2⟩, h.2⟩
  · exact h

/-! ### Whole rounds -/

/-- A round starts and ends with a message in every state, and can fail only by a
throw of `batchAcquireKeyLock`. -/
theorem round_visitable (hd : DistinctContexts states) (hready : ∀ n ∈ states, Visitable n.2)
    (hsend : sendAll env states ctx = .ok (log, c)) (hans : Answers executors history log rs) :
    (∀ {states' keyLocks victims}, roundEnd log c rs = .next states' keyLocks victims →
      ∀ n ∈ states', Visitable n.2) ∧
    ∀ {f}, roundEnd log c rs = .fault f → ∃ e, f = .exception e := by
  have hreach := sendReach_of_sendAll hsend
  have hshape := hreach.shape hd.keyed hd.nodup
  have hinv := hreach.visitableInv hd hready
  rcases roundEnd_cases log c rs with ⟨e, herr⟩ | ⟨hgood, hpass⟩
  · rw [herr]
    constructor
    · intro states' keyLocks victims hend
      cases hend
    · intro f hend
      cases hend
  · have hreplied := hinv.replied hshape.sentNodup hans hgood
    rcases hpass with ⟨-, htotal, hpass⟩ | hpass
    · -- nothing was sent, so everybody waits for a key, in a frame
      have hnone := hshape.dispatched_nil htotal
      have hframed : ∀ n ∈ c.visited.map (applyReplies rs), Visitable n.2 ∧ n.2.callStack ≠ [] := by
        intro n hn
        refine ⟨hreplied n hn, fun hnil => ?_⟩
        rw [hans.nil hnone, map_applyReplies_nil] at hn
        obtain ⟨m, hmsg, htype⟩ := (hreach.quiet hnone hinv.noError).2.2 n hn
        obtain ⟨m', hmsg', hfirst⟩ := (hinv.behind n hn).elim (fun h => h.1.message)
          fun h => by rw [h.1.message] at hmsg; cases hmsg
        obtain rfl := Option.some.inj (hmsg.symm.trans hmsg')
        rcases hfirst hnil with hreq | hreq
        · rw [htype] at hreq
          cases hreq
        · rw [htype] at hreq
          cases hreq
      rw [hpass]
      constructor
      · intro states' keyLocks victims hend n hn
        exact (runPass_states deadLockCallback_visitable hframed hend n hn).1
      · intro f hend
        obtain ⟨n, hn, s, hfail⟩ := runPass_fault deadLockCallback_updates hend
        exact absurd (deadLockCallback_error hfail).2 (hreplied n hn).hasMessage
    · rw [hpass]
      constructor
      · intro states' keyLocks victims hend
        exact runPass_states keyLockCallback_visitable hreplied hend
      · intro f hend
        obtain ⟨n, hn, s, hfail⟩ := runPass_fault keyLockCallback_updates hend
        exact keyLockCallback_throws (hreplied n hn).hasMessage hfail

theorem Reaches.visitable (hd : DistinctContexts states₀) (hready : ∀ n ∈ states₀, Visitable n.2)
    (h : Reaches env executors states₀ ctx₀ states ctx history) : ∀ n ∈ states, Visitable n.2 := by
  induction h with
  | start => exact hready
  | next hreach _ hsend hans hend ih =>
      exact (round_visitable (hreach.distinct hd) ih hsend hans).1 hend

/-! ### Runs -/

section Runs

variable {m m' k : Machine} {p : ContextID × Reply} {env : BlockEnv}

/-- A step from `m` calls `checkBatch` in the state `k`: as the sender, behind its
traversal, or as the handler that has written a reply. -/
inductive Machine.Checks (executors : Executors) (m : Machine) : Machine → Prop
  | sender : m.todo = [] → m.log.status.allSended = true → Machine.Checks executors m m
  | handler {d : Dispatch} {r : Reply} : d ∈ m.log.dispatched →
      d.contextID ∉ m.replied.map Prod.fst → executors.reply m.sentBefore d.message r →
      Machine.Checks executors m (m.receive d.contextID r)

/-- `checkBatch` makes a pass over the states: the batch is complete, without error. -/
structure Machine.MakesPass (k : Machine) : Prop where
  allSended : k.log.status.allSended = true
  received : k.log.status.received = k.log.status.total
  error : k.log.status.error = 0

theorem Mid.checks (hd : DistinctContexts states) (hm : Mid env executors states ctx m)
    (h : m.Checks executors k) : Mid env executors states ctx k := by
  cases h with
  | sender => exact hm
  | handler hmem hnew hr => exact hm.receive hd hmem hnew hr

/-- `DMTExecute` has called back with the error of a failed batch. -/
def Machine.CalledBackError (m : Machine) : Prop :=
  m.phase = .finished (.error (SchedulerError.DMTError.error "Execute with errors"))

/-- Every message of the batch was replied to. -/
def Machine.AllReplied (m : Machine) : Prop :=
  ∀ d ∈ m.log.dispatched, d.contextID ∈ m.replied.map Prod.fst

/-- A failed reply is counted. -/
theorem Mid.error_pos (hm : Mid env executors states ctx m) (hp : p ∈ m.replied)
    (hfail : p.2.failed = true) : 0 < m.log.status.error := by
  obtain ⟨log, visited, b, -, -, hlog, -⟩ := hm.path
  have hcount : 0 < m.replied.countP fun p => p.2.failed := List.countP_pos_iff.mpr ⟨p, hp, hfail⟩
  rw [hlog]
  simp only [SendLog.seen]
  omega

theorem Mid.good (hm : Mid env executors states ctx m) (herror : m.log.status.error = 0) :
    ∀ p ∈ m.replied, p.2.failed = false := by
  intro p hp
  rcases hfail : p.2.failed with _ | _
  · rfl
  · exact absurd (hm.error_pos hp hfail) (by omega)

/-- When every message was replied to, the counters agree. -/
theorem Mid.counted (hd : DistinctContexts states) (hm : Mid env executors states ctx m)
    (hall : m.AllReplied) : m.log.status.received = m.log.status.total ∧
      m.log.status.callbackExecuted = false := by
  obtain ⟨log, visited, b, hreach, -, hlog, -⟩ := hm.path
  have hshape := hreach.shape hd.keyed hd.nodup
  have hdisp : m.log.dispatched = log.dispatched := by rw [hlog]; rfl
  have hperm : (m.replied.map Prod.fst).Perm log.sentTo := by
    refine (List.perm_ext_iff_of_nodup hm.repliedNodup hshape.sentNodup).mpr fun i => ⟨?_, ?_⟩
    · intro hi
      obtain ⟨p, hp, rfl⟩ := List.mem_map.mp hi
      obtain ⟨d, hmem, hctx, -⟩ := hm.replies p hp
      exact List.mem_map.mpr ⟨d, hdisp ▸ hmem, hctx⟩
    · intro hi
      obtain ⟨d, hmem, rfl⟩ := List.mem_map.mp hi
      exact hall d (hdisp ▸ hmem)
  have hlen := hperm.length_eq
  rw [List.length_map, SendLog.sentTo, List.length_map] at hlen
  rw [hlog]
  simp only [SendLog.seen, hshape.received, hshape.total, hlen, Nat.zero_add]
  exact ⟨trivial, hshape.pending⟩

/-- The check of a batch with an error leaves the batch as it is, and ends it if it
is complete. -/
theorem checkBatch_of_error (staticCall : Bool) (herror : 0 < m.log.status.error) :
    (m.checkBatch staticCall).history = m.history ∧
    (m.checkBatch staticCall).receipts = m.receipts ∧
    (m.checkBatch staticCall).replied = m.replied ∧
    (m.checkBatch staticCall).log.dispatched = m.log.dispatched ∧
    (m.checkBatch staticCall).todo = m.todo ∧
    ((m.checkBatch staticCall).phase = m.phase ∨ (m.checkBatch staticCall).CalledBackError) := by
  have hend : endBatch m.log.status m.states m.log.ctx.keyLocks
      = .error (SchedulerError.BatchError.error "Batch with errors") := if_pos herror
  unfold Machine.checkBatch
  split_ifs
  · rw [hend]
    exact ⟨rfl, rfl, rfl, rfl, rfl, Or.inr rfl⟩
  · exact ⟨rfl, rfl, rfl, rfl, rfl, Or.inl rfl⟩

theorem checkBatch_complete (herror : 0 < m.log.status.error)
    (hall : m.log.status.allSended = true)
    (hcounted : m.log.status.received = m.log.status.total ∧
      m.log.status.callbackExecuted = false) : (m.checkBatch staticCall).CalledBackError := by
  have hend : endBatch m.log.status m.states m.log.ctx.keyLocks
      = .error (SchedulerError.BatchError.error "Batch with errors") := if_pos herror
  unfold Machine.checkBatch
  rw [if_pos ⟨hall, hcounted.1, hcounted.2⟩, hend]
  rfl

/-- The machine `m` is still in the batch of `history`, which has the failed reply
`p`, or has ended with the error; nothing is in the block. -/
structure FailedIn (history : List BatchLog) (p : ContextID × Reply) (m : Machine) : Prop where
  history : m.history = history
  replied : p ∈ m.replied
  receipts : m.receipts = []
  phase : m.phase = .batching ∨ m.CalledBackError

theorem FailedIn.checkBatch (staticCall : Bool) (h : FailedIn history p m)
    (herror : 0 < m.log.status.error) :
    FailedIn history p (m.checkBatch staticCall) := by
  obtain ⟨hhistory, hreceipts, hreplied, -, -, hphase⟩ := checkBatch_of_error staticCall herror
  refine ⟨hhistory.trans h.history, hreplied ▸ h.replied, hreceipts.trans h.receipts, ?_⟩
  rcases hphase with hphase | hphase
  · unfold Machine.CalledBackError
    rw [hphase]
    exact h.phase
  · exact Or.inr hphase

theorem FailedIn.step (hd : DistinctContexts states₀) (hstart : ∀ n ∈ states₀, Visitable n.2)
    (hexp : Explained env executors staticCall states₀ ctx₀ m) (hfail : p.2.failed = true)
    (h : FailedIn history p m) (hstep : Machine.Step env staticCall executors m m') :
    FailedIn history p m' ∧
      (m.todo = [] → m'.todo = [] ∧ m'.log.dispatched = m.log.dispatched) := by
  cases hstep with
  | @visit n rest hphase htodo =>
      obtain ⟨states, ctx, hreach, -, hm⟩ := hexp.batching hphase
      have hdist := hreach.distinct hd
      rcases hm.visit hdist htodo with ⟨f, log, hfault, -⟩ | ⟨log, c, todo, heq, -⟩
      · exact absurd hfault (SendFault.not_visitable hdist (hreach.visitable hd hstart))
      · rw [heq]
        exact ⟨⟨h.history, h.replied, h.receipts, Or.inl hphase⟩,
          fun hnil => by rw [htodo] at hnil; cases hnil⟩
  | allSended hphase htodo =>
      exact ⟨⟨h.history, h.replied, h.receipts, Or.inl hphase⟩, fun _ => ⟨htodo, rfl⟩⟩
  | check hphase htodo hall =>
      obtain ⟨states, ctx, -, -, hm⟩ := hexp.batching hphase
      have herror := hm.error_pos h.replied hfail
      obtain ⟨-, -, -, hdisp, htodo', -⟩ := checkBatch_of_error staticCall herror
      exact ⟨h.checkBatch staticCall herror, fun _ => ⟨htodo'.trans htodo, hdisp⟩⟩
  | @reply d r hphase hmem hnew hr =>
      obtain ⟨states, ctx, hreach, -, hm⟩ := hexp.batching hphase
      have hm' := hm.receive (hreach.distinct hd) hmem hnew hr
      have hreplied : p ∈ (m.receive d.contextID r).replied := List.mem_append_left _ h.replied
      have herror := hm'.error_pos hreplied hfail
      have hreceived : FailedIn history p (m.receive d.contextID r) :=
        ⟨h.history, hreplied, h.receipts, Or.inl hphase⟩
      obtain ⟨-, -, -, hdisp, htodo', -⟩ := checkBatch_of_error staticCall herror
      refine ⟨hreceived.checkBatch staticCall herror, fun hnil => ⟨htodo'.trans ?_, hdisp⟩⟩
      show m.todo.map _ = []
      rw [hnil, List.map_nil]
  | hash hphase =>
      rcases h.phase with hb | hb
      · rw [hphase] at hb
        cases hb
      · rw [Machine.CalledBackError, hphase] at hb
        cases hb

/-- The replies after a check are those from before, or the next batch has begun. -/
theorem checkBatch_replied (staticCall : Bool) (m : Machine) :
    (m.checkBatch staticCall).replied = m.replied ∨ (m.checkBatch staticCall).replied = [] := by
  refine Machine.checkBatch_rule staticCall (P := fun k => k.replied = m.replied ∨ k.replied = [])
    (fun _ _ _ h => h) (Or.inl rfl) (fun _ _ _ _ _ => Or.inr rfl) (Or.inl rfl)

/-- A failed reply is one of a batch that has not gone on. -/
theorem Steps.failedIn (hd : DistinctContexts states₀) (hstart : ∀ n ∈ states₀, Visitable n.2)
    (h : Machine.Steps env staticCall executors (Machine.startBatch states₀ ctx₀ []) m)
    (hfail : p.2.failed = true) : p ∈ m.replied → FailedIn m.history p m := by
  induction h with
  | refl =>
      intro hp
      cases hp
  | @tail m m' hrun hstep ih =>
      intro hp
      have hexp := Steps.explained hd hrun
      have hold : p ∈ m.replied → FailedIn m'.history p m' := by
        intro hp
        have hnext := ((ih hp).step hd hstart hexp hfail hstep).1
        exact ⟨rfl, hnext.replied, hnext.receipts, hnext.phase⟩
      cases hstep with
      | @visit n rest hphase htodo =>
          apply hold
          unfold Machine.visit at hp
          split at hp
          · exact hp
          · exact hp
      | allSended => exact hold hp
      | check =>
          apply hold
          rcases checkBatch_replied staticCall m with heq | heq
          · exact heq ▸ hp
          · rw [heq] at hp
            cases hp
      | @reply d r hphase hmem hnew hr =>
          -- the reply may be the failed one
          obtain ⟨states, ctx, hreach, -, hm⟩ := hexp.batching hphase
          have hm' := hm.receive (hreach.distinct hd) hmem hnew hr
          rcases checkBatch_replied staticCall (m.receive d.contextID r) with
            heq | heq
          · rw [heq] at hp
            have hreceived : FailedIn m.history p (m.receive d.contextID r) :=
              ⟨rfl, hp, hm.receipts, Or.inl hphase⟩
            have hnext := hreceived.checkBatch staticCall (hm'.error_pos hp hfail)
            exact ⟨rfl, hnext.replied, hnext.receipts, hnext.phase⟩
          · rw [heq] at hp
            cases hp
      | @hash answer hphase hanswer =>
          apply hold
          cases answer with
          | error e => exact hp
          | ok hash => exact hp

theorem FailedIn.steps (hd : DistinctContexts states₀) (hstart : ∀ n ∈ states₀, Visitable n.2)
    (hrun : Machine.Steps env staticCall executors (Machine.startBatch states₀ ctx₀ []) m)
    (hfail : p.2.failed = true) (h : FailedIn history p m)
    (hsteps : Machine.Steps env staticCall executors m m') :
    FailedIn history p m' ∧
      (m.todo = [] → m'.todo = [] ∧ m'.log.dispatched = m.log.dispatched) := by
  induction hsteps with
  | refl => exact ⟨h, fun htodo => ⟨htodo, rfl⟩⟩
  | @tail k k' hsteps hstep ih =>
      have hexp := Steps.explained hd (hrun.trans hsteps)
      obtain ⟨hnext, hsent⟩ := ih.1.step hd hstart hexp hfail hstep
      refine ⟨hnext, fun htodo => ?_⟩
      obtain ⟨htodo₁, hdisp₁⟩ := ih.2 htodo
      obtain ⟨htodo₂, hdisp₂⟩ := hsent htodo₁
      exact ⟨htodo₂, hdisp₂.trans hdisp₁⟩

/-- How a batch with a failed reply ends: the sender finds it complete, or the
handler of the last reply does. -/
theorem FailedIn.completes (hd : DistinctContexts states₀)
    (hexp : Explained env executors staticCall states₀ ctx₀ m) (hfail : p.2.failed = true)
    (h : FailedIn history p m) (hphase : m.phase = .batching) :
    (m.todo = [] → m.AllReplied → (m.setAllSended.checkBatch staticCall).CalledBackError) ∧
    (m.log.status.allSended = true → ∀ d ∈ m.log.dispatched, ∀ r,
      executors.reply m.sentBefore d.message r → d.contextID ∉ m.replied.map Prod.fst →
      (∀ d' ∈ m.log.dispatched, d'.contextID ≠ d.contextID →
        d'.contextID ∈ m.replied.map Prod.fst) →
      ((m.receive d.contextID r).checkBatch staticCall).CalledBackError) := by
  obtain ⟨states, ctx, hreach, -, hm⟩ := hexp.batching hphase
  have hdist := hreach.distinct hd
  constructor
  · intro htodo hall
    have hm' := hm.setAllSended htodo
    exact checkBatch_complete (hm'.error_pos h.replied hfail) rfl (hm'.counted hdist hall)
  · intro hsended d hmem r hr hnew hothers
    have hm' := hm.receive hdist hmem hnew hr
    have hall : (m.receive d.contextID r).AllReplied := by
      intro d' hd'
      simp only [Machine.receive, List.map_append, List.mem_append, List.map_cons, List.map_nil,
        List.mem_singleton]
      by_cases hsame : d'.contextID = d.contextID
      · exact Or.inr hsame
      · exact Or.inl (hothers d' hd' hsame)
    exact checkBatch_complete (hm'.error_pos (List.mem_append_left _ h.replied) hfail) hsended
      (hm'.counted hdist hall)

/-- Messages are there where they are read. -/
theorem Explained.messages (hd : DistinctContexts states₀) (hstart : ∀ n ∈ states₀, Visitable n.2)
    (hexp : Explained env executors staticCall states₀ ctx₀ m) :
    (∀ f, m.phase = .finished (.fault f) → ∃ e, f = .exception e) ∧
    (m.phase = .batching → (∀ n ∈ m.todo, n.2.error = none ∧ n.2.message ≠ none) ∧
      ∀ k, m.Checks executors k → k.MakesPass → ∀ n ∈ k.states, n.2.message ≠ none) := by
  constructor
  · intro f hphase
    unfold Explained at hexp
    rw [hphase] at hexp
    obtain ⟨-, states, ctx, log, hreach, -, -, -, hfault⟩ := hexp
    have hdist := hreach.distinct hd
    have hready := hreach.visitable hd hstart
    rcases hfault with hfault | ⟨c, rs, hsend, hans, hround⟩
    · exact absurd hfault (SendFault.not_visitable hdist hready)
    · exact (round_visitable hdist hready hsend hans).2 hround
  · intro hphase
    obtain ⟨states, ctx, hreach, -, hm⟩ := hexp.batching hphase
    have hdist := hreach.distinct hd
    have hready := hreach.visitable hd hstart
    constructor
    · obtain ⟨log, visited, b, hsend, -⟩ := hm.path
      intro n hn
      have hv := (hsend.visitableInv hdist hready).ahead n hn
      exact ⟨hv.error, hv.hasMessage⟩
    · intro k hk hpass n hn
      have hm' := hm.checks hdist hk
      obtain ⟨log, c, hsend, hans, -, hstates, -⟩ :=
        hm'.complete hdist hpass.allSended hpass.received
      have hsent := sendReach_of_sendAll hsend
      rw [hstates] at hn
      exact ((hsent.visitableInv hdist hready).replied
        (hsent.shape hdist.keyed hdist.nodup).sentNodup hans (hm'.good hpass.error) n hn).hasMessage

end Runs

/-! ### Blocks without DAG transactions -/

section Blocks

variable {env : ExecuteEnv} {block : Block} {x x' : Execution} {m m' : Machine}

/-- The states of a block can be visited. -/
theorem visitable_blockStates (env : ExecuteEnv) (block : Block) :
    ∀ n ∈ (blockStates env block).1, Visitable n.2 := by
  intro n hn
  have hfresh := blockStates_fresh env block n hn
  obtain ⟨i, -, p, hget, hmsg, -⟩ := hfresh.frame
  exact ⟨hfresh.error, p.1, hmsg, fun _ => (blockMessages_get hget).2⟩

/-- Without DAG transactions `DMTExecute` starts on the states of the block. -/
theorem Execution.Steps.dmtStart (hdag : (blockStates env block).2 = false)
    (h : Execution.Steps env block executors (Execution.start env block) x) :
    x.dag = none ∧ ∀ m ∈ x.dmts, Machine.Steps (env.blockEnv block) env.staticCall executors
      (BcosScheduler.dmtStart env block) m := by
  induction h with
  | refl =>
      unfold Execution.start
      split_ifs
      · refine ⟨rfl, fun m hm => ?_⟩
        obtain rfl : m = BcosScheduler.dmtStart env block := List.mem_singleton.mp hm
        exact .refl
      · exact ⟨rfl, by simp⟩
  | @tail x x' _ hstep ih =>
      obtain ⟨hnone, hruns⟩ := ih
      cases hstep with
      | nextBlock =>
          simp only [Execution.afterNextBlock, hdag, Bool.false_eq_true, if_false]
          split_ifs
          · exact ⟨hnone, hruns⟩
          · refine ⟨hnone, fun m hm => ?_⟩
            rcases List.mem_append.mp hm with hm | hm
            · exact hruns m hm
            · obtain rfl : m = BcosScheduler.dmtStart env block := List.mem_singleton.mp hm
              exact .refl
      | dagSend hd =>
          rw [hnone] at hd
          cases hd
      | dagReply hd =>
          rw [hnone] at hd
          cases hd
      | @dmt before after k k' hdmts hk =>
          refine ⟨hnone, fun m hm => ?_⟩
          simp only [List.mem_append, List.mem_cons] at hm
          rcases hm with hm | rfl | hm
          · exact hruns m (by simp [hdmts, hm])
          · exact (hruns k (by simp [hdmts])).tail hk
          · exact hruns m (by simp [hdmts, hm])

/-- Once `DMTExecute` was started, `asyncExecute` makes its steps only. -/
theorem Execution.Steps.dmt_only
    (h : Execution.Steps env block executors (Execution.start env block) x) (hm : x.dmts = [m])
    (hsteps : Execution.Steps env block executors x x') :
    x'.errors = x.errors ∧ ∃ m', x'.dmts = [m'] ∧
      Machine.Steps (env.blockEnv block) env.staticCall executors m m' := by
  induction hsteps with
  | refl => exact ⟨rfl, m, hm, .refl⟩
  | @tail y y' hxy hstep ih =>
      obtain ⟨herrors, k, hk, hsteps⟩ := ih
      have hinv := Execution.Steps.inv (h.trans hxy)
      -- the one start was the last thing `asyncExecute` had to do
      have hdone : y.nextBlock = false ∧ ∀ d, y.dag = some d → d.todo = [] ∧ d.waiting = [] := by
        rcases hinv.once with hnone | ⟨-, hdone⟩
        · rw [hk] at hnone
          cases hnone
        · exact hdone
      cases hstep with
      | nextBlock hnext =>
          rw [hdone.1] at hnext
          cases hnext
      | dagSend hd htodo =>
          rw [(hdone.2 _ hd).1] at htodo
          cases htodo
      | dagReply hd hmem =>
          rw [(hdone.2 _ hd).2] at hmem
          cases hmem
      | @dmt before after l l' hdmts hl =>
          obtain ⟨rfl, rfl⟩ := hinv.only hdmts
          rw [hdmts, List.nil_append, List.cons.injEq] at hk
          obtain ⟨rfl, -⟩ := hk
          exact ⟨herrors, l', rfl, hsteps.tail hl⟩

/-- **A failing reply stops the block.**  In every run of a block without DAG transactions:
`assert(message)` holds at every visit of a traversal, no visited state has an error, and
when `checkBatch` makes a pass every state has its message, so nothing but a throw of
`batchAcquireKeyLock` ends a run outside the normal flow.  If a reply of a batch
is an error or null, then in all that follows no further batch is begun, the block gets no
receipt, and `DMTExecute` has called back with its error and does nothing more, or it still
sends or waits for replies of this batch: when all of them have arrived, the sender behind
its traversal or the handler of the last reply calls back with the error. -/
theorem failing_reply_stops_block (hdag : ∀ i, block.dag i = false)
    (h : Execution.Steps env block executors (Execution.start env block) x) (hm : m ∈ x.dmts) :
    (∀ f, m.phase = .finished (.fault f) → ∃ e, f = .exception e) ∧
    (m.phase = .batching → (∀ n ∈ m.todo, n.2.error = none ∧ n.2.message ≠ none) ∧
      ∀ k, m.Checks executors k → k.MakesPass → ∀ n ∈ k.states, n.2.message ≠ none) ∧
    ∀ p ∈ m.replied, p.2.failed = true →
      ∀ x', Execution.Steps env block executors x x' →
        x'.errors = x.errors ∧ ∃ m', x'.dmts = [m'] ∧
        m'.history = m.history ∧ m'.receipts = [] ∧
        (m.todo = [] → m'.log.dispatched = m.log.dispatched) ∧
        ((m'.CalledBackError ∧ ∀ k,
            ¬ Machine.Step (env.blockEnv block) env.staticCall executors m' k) ∨
          m'.phase = .batching ∧
          (m'.todo = [] → m'.AllReplied →
            (m'.setAllSended.checkBatch env.staticCall).CalledBackError) ∧
          (m'.log.status.allSended = true → ∀ d ∈ m'.log.dispatched, ∀ r,
            executors.reply m'.sentBefore d.message r →
            d.contextID ∉ m'.replied.map Prod.fst →
            (∀ d' ∈ m'.log.dispatched, d'.contextID ≠ d.contextID →
              d'.contextID ∈ m'.replied.map Prod.fst) →
            ((m'.receive d.contextID r).checkBatch env.staticCall).CalledBackError)) := by
  have hd := distinct_blockStates env block
  have hstart := visitable_blockStates env block
  have hwith : (blockStates env block).2 = false := by
    rw [Bool.eq_false_iff]
    intro hwith
    obtain ⟨i, hi⟩ := (withDAG_iff env block).mp hwith
    rw [hdag i] at hi
    cases hi
  have hrun := (Execution.Steps.dmtStart hwith h).2 m hm
  have hexp := Steps.explained hd hrun
  obtain ⟨hfault, hmessages⟩ := hexp.messages hd hstart
  refine ⟨hfault, hmessages, fun p hp hfail x' hsteps => ?_⟩
  have hone : x.dmts = [m] := by
    obtain ⟨before, after, hsplit⟩ := List.append_of_mem hm
    obtain ⟨rfl, rfl⟩ := (Execution.Steps.inv h).only hsplit
    exact hsplit
  obtain ⟨herrors, m', hm', hmsteps⟩ := Execution.Steps.dmt_only h hone hsteps
  obtain ⟨hfailed, hsent⟩ := (Steps.failedIn hd hstart hrun hfail hp).steps hd hstart hrun hfail
    hmsteps
  refine ⟨herrors, m', hm', hfailed.history, hfailed.receipts, fun htodo => (hsent htodo).2, ?_⟩
  rcases hfailed.phase with hphase | hphase
  · exact Or.inr ⟨hphase, hfailed.completes hd (Steps.explained hd (hrun.trans hmsteps)) hfail
      hphase⟩
  · refine Or.inl ⟨hphase, fun k hstep => ?_⟩
    unfold Machine.CalledBackError at hphase
    cases hstep with
    | visit hb => rw [hphase] at hb; cases hb
    | allSended hb => rw [hphase] at hb; cases hb
    | check hb => rw [hphase] at hb; cases hb
    | reply hb => rw [hphase] at hb; cases hb
    | hash hb => rw [hphase] at hb; cases hb

/-- Executors that answer nothing. -/
def silent (_ : List (List ExecutionMessage)) (_ : ExecutionMessage) : Reply := .null

/-- The first of two calls was sent and has a null reply. -/
def silentRun : Machine := plainRun (callsTo ["a", "b"]) silent [.visit, .reply 0]

/-- The second call is still ahead, and the block is stopped. -/
theorem failing_reply_stops_block_two_calls : silentRun.todo.length = 1 ∧
    ∀ x', Execution.Steps plainEnv (callsTo ["a", "b"]) (.ofFun silent plainRoot)
        { nextBlock := false, dmts := [silentRun] } x' →
      ∃ m', x'.dmts = [m'] ∧ m'.receipts = [] := by
  have hdag : ∀ i, (callsTo ["a", "b"]).dag i = false := by
    intro i
    rcases i with _ | _ | i <;> rfl
  have hwith : (blockStates plainEnv (callsTo ["a", "b"])).2 = false := by decide +kernel
  have hrun : Execution.Steps plainEnv (callsTo ["a", "b"]) (.ofFun silent plainRoot)
      (Execution.start plainEnv (callsTo ["a", "b"]))
      { nextBlock := false, dmts := [silentRun] } :=
    (Execution.steps_dmtStart rfl hwith).trans (Execution.steps_dmt rfl
      (plainRun_steps (callsTo ["a", "b"]) silent [.visit, .reply 0]))
  refine ⟨by decide +kernel, fun x' hx' => ?_⟩
  obtain ⟨-, m', hm', -, hreceipts, -⟩ :=
    (failing_reply_stops_block hdag hrun (List.mem_singleton.mpr rfl)).2.2 (0, .null)
      (by decide +kernel) rfl x' hx'
  exact ⟨m', hm', hreceipts⟩

end Blocks

end BcosScheduler
