/-
BcosScheduler/Progress.lean

Deadlock resolution makes progress.

When a batch sends nothing, every transaction that is left waits for a key, and
its owner is a transaction that is left as well.  So there is a cycle of waits
and `detectDeadLock` finds it for some owner; the pass turns one transaction
back, and its message is sent in the next batch.
-/
import BcosScheduler.NoLeak
import Mathlib.Data.List.Chain

namespace BcosScheduler

variable {env : BlockEnv} {executors : Executors} {states nodes : List Node} {ctx : SendContext}
  {log log' : SendLog} {c c' : Cursor} {n : Node} {history : List BatchLog}
  {todo rest rest' : List Node} {rs : List (ContextID × Reply)}

/-! ### A cycle is found -/

/-- A transaction that is left and owns a key. -/
def LiveOwner (nodes : List Node) (t : Locks) (i : ContextID) : Prop :=
  i ∈ contexts nodes ∧ ∃ k s, t.own k i s

/-- A waiting transaction waits for a live owner. -/
theorem Waiting.waitsFor {t : Locks} {m : ExecutionMessage} (h : Waiting t n.2 m)
    (hlive : LiveFrames nodes t) : ∃ i, LiveOwner nodes t i ∧ t.WaitsFor n.2.contextID i := by
  obtain ⟨s, hreq⟩ := h.requests
  obtain ⟨i, s', hown, -⟩ := h.owned
  obtain ⟨k, hk, hctx, -⟩ := hlive i s' ⟨_, Or.inl hown⟩
  exact ⟨i, ⟨List.mem_map.mpr ⟨k, hk, hctx⟩, _, s', hown⟩, _, s, s', hreq, hown⟩

/-- If everybody waits, somebody is found deadlocked. -/
theorem exists_detectDeadLock {g : GraphKeyLocks} (hwf : g.Wf) (hlive : LiveFrames nodes g.table)
    (hwait : ∀ n ∈ nodes, ∃ m, Waiting g.table n.2 m) (hleft : nodes ≠ []) :
    ∃ n ∈ nodes, g.detectDeadLock n.2.contextID = true := by
  -- otherwise every live owner starts only finite chains of waits, but each of them
  -- waits for a live owner again
  by_contra hnone
  simp only [not_exists, not_and, Bool.not_eq_true] at hnone
  have hchain : ∀ i, LiveOwner nodes g.table i →
      ∃ i', LiveOwner nodes g.table i' ∧ g.table.WaitsFor i i' := by
    rintro i ⟨hi, -⟩
    obtain ⟨n, hn, rfl⟩ := List.mem_map.mp hi
    obtain ⟨m, hw⟩ := hwait n hn
    exact hw.waitsFor hlive
  obtain ⟨n, hn⟩ := List.exists_mem_of_ne_nil nodes hleft
  obtain ⟨m, hw⟩ := hwait n hn
  obtain ⟨i, howner, -⟩ := hw.waitsFor hlive
  obtain ⟨k, hk, rfl⟩ := List.mem_map.mp howner.1
  exact LockTable.not_acc_of_all_wait hchain howner
    (hwf.acc_of_detectDeadLock_false howner.2 (hnone k hk))

/-- The deadlock pass of a batch that sent nothing turns back exactly one
transaction. -/
theorem FrameInv.turnsBack (h : FrameInv log c []) (hnone : log.dispatched = [])
    (hleft : c.visited ≠ []) :
    ∃ before n after, c.visited = before ++ n :: after ∧
      runPass deadLockCallback c.visited log.ctx.keyLocks
        = .next (before ++ turnBack n :: after) log.ctx.keyLocks [n.2.contextID] := by
  have hwait := h.waiting hnone
  have hlive : LiveFrames c.visited log.ctx.keyLocks.table := by simpa using h.live
  obtain ⟨n, hn, hdet⟩ := exists_detectDeadLock h.wf hlive (fun n hn => (hwait n hn).2) hleft
  rcases runPass_deadLock log.ctx.keyLocks (h.waiting_unmarked hnone) with
    ⟨hall, -⟩ | ⟨before, k, after, hsplit, -, -, heq⟩
  · rw [hall n hn] at hdet
    cases hdet
  · exact ⟨before, k, after, hsplit, heq⟩

/-! ### The next batch sends -/

/-- The sending traversal does not fail. -/
theorem FrameInv.visit_ok (env : BlockEnv) (h : FrameInv log c (n :: rest)) :
    ∃ r, traverseStep (sendCallback env) n rest log c = .ok r := by
  obtain ⟨⟨m, hidle⟩, -⟩ := h.ahead n (by simp)
  unfold traverseStep
  split_ifs
  · exact ⟨_, rfl⟩
  · have hcall : ∃ r, sendCallback env log n.2 = .ok r := by
      apply sendCallback_ok hidle.message
      intro hret
      obtain ⟨frames, htop⟩ := hidle.returned hret
      simp [htop]
    obtain ⟨⟨hint, log', state⟩, hr⟩ := hcall
    rw [hr]
    exact ⟨_, rfl⟩

theorem sendAll_ok (env : BlockEnv) (hd : DistinctContexts states) (h : FrameState states ctx.keyLocks) :
    ∃ log c, sendAll env states ctx = .ok (log, c) := by
  have hrun : ∃ r, sendAll env states ctx = .ok r :=
    traverseFrom_ok (P := SendReach env states ctx)
      (fun hreach => (hreach.frameInv hd h).visit_ok env) (fun hreach hstep => hreach.step hstep)
      .start
  obtain ⟨⟨log, c⟩, hr⟩ := hrun
  exact ⟨log, c, hr⟩

/-- The transaction was turned back. -/
def TurnedBack (n : Node) : Prop := ∃ m, n.2.message = some m ∧ m.type = .REVERT_KEY_LOCK

/-- As long as nothing is sent, a transaction that was turned back is ahead. -/
theorem SendReach.turnedBack (hd : DistinctContexts states) (hstate : FrameState states ctx.keyLocks)
    (hback : ∃ n ∈ states, TurnedBack n) (h : SendReach env states ctx log c todo) :
    log.dispatched = [] → ∃ n ∈ todo, TurnedBack n := by
  induction h with
  | start => exact fun _ => hback
  | @step log log' c c' n rest rest' hreach hstep ih =>
      intro hnone
      have hinv := hreach.frameInv hd hstate
      obtain ⟨⟨m, hidle⟩, -⟩ := hinv.ahead n (by simp)
      have hbefore : log.dispatched = [] := by
        rcases sendStep_cases hstep with ⟨-, rfl, -, -⟩ | ⟨-, hint, state, hsends, -⟩
        · exact hnone
        · cases hsends
          case send => simp [SendLog.sent] at hnone
          all_goals exact hnone
      obtain ⟨k, hk, hback⟩ := ih hbefore
      obtain ⟨hcalled, hbound⟩ := hinv.quiet hbefore
      -- nothing is jumped over or skipped, so the visit waits or erases
      rcases sendStep_cases hstep with ⟨hjump, -⟩ | ⟨-, hint, state, hsends, heq⟩
      · simp [Cursor.jumps, hbound] at hjump
      · have hnot : ∀ {m'}, n.2.message = some m' → m'.type ≠ .REVERT_KEY_LOCK →
            rest' = rest → ∃ k ∈ rest', TurnedBack k := by
          rintro m' hm' htype rfl
          rcases List.mem_cons.mp hk with rfl | hk
          · obtain ⟨m'', hm'', htype'⟩ := hback
            rw [hm'] at hm''
            cases hm''
            exact absurd htype' htype
          · exact ⟨k, hk, hback⟩
        cases hsends with
        | error herr => simp [hidle.error] at herr
        | skip _ _ _ hmem =>
            rw [hcalled] at hmem
            cases hmem
        | wait _ hmsg _ htype =>
            cases heq
            exact hnot hmsg (by simp [htype]) rfl
        | erase _ hmsg _ htype =>
            cases heq
            refine hnot hmsg ?_ rfl
            rcases htype with htype | htype <;> simp [htype]
        | send => simp [SendLog.sent] at hnone

/-- A batch with a transaction that was turned back sends something. -/
theorem sendAll_turnedBack (hd : DistinctContexts states) (h : FrameState states ctx.keyLocks)
    (hback : ∃ n ∈ states, TurnedBack n) (hsend : sendAll env states ctx = .ok (log, c)) :
    log.dispatched ≠ [] := by
  intro hnone
  obtain ⟨n, hn, -⟩ := (sendReach_of_sendAll hsend).turnedBack hd h hback hnone
  cases hn

/-! ### Whole runs -/

/-- A batch that sent nothing ends with one transaction turned back. -/
theorem roundEnd_quiet (hd : DistinctContexts states) (h : FrameState states ctx.keyLocks)
    (hsend : sendAll env states ctx = .ok (log, c)) (hans : Answers executors history log rs)
    (hnone : log.dispatched = []) (hleft : c.visited ≠ []) :
    ∃ before n after, c.visited = before ++ n :: after ∧
      (∀ k ∈ c.visited, ∃ m, Waiting log.ctx.keyLocks.table k.2 m) ∧
      roundEnd log c rs
        = .next (before ++ turnBack n :: after) log.ctx.keyLocks [n.2.contextID] := by
  have hreach := sendReach_of_sendAll hsend
  have hinv := hreach.frameInv hd h
  have htotal : log.status.total = 0 := by
    rw [(hreach.shape hd.keyed hd.nodup).total, hnone]
    rfl
  obtain ⟨before, n, after, hsplit, hpass⟩ := hinv.turnsBack hnone hleft
  refine ⟨before, n, after, hsplit, fun k hk => (hinv.waiting hnone k hk).2, ?_⟩
  rw [hans.nil hnone, roundEnd, map_applyReplies_nil, ← hpass]
  simp [endBatch, SendLog.seen, hinv.noError, htotal, hleft]

/-- Of two batches in a row one sends something. -/
theorem Reaches.progress {states₀ : List Node} {ctx₀ : SendContext}
    (hd : DistinctContexts states₀) (h₀ : FrameState states₀ ctx₀.keyLocks)
    (hkeeps : executors.KeepsFrame)
    (h : Reaches env executors states₀ ctx₀ states ctx history) :
    history.IsChain (fun b b' => b.dispatched ≠ [] ∨ b'.dispatched ≠ []) ∧
    ∀ b ∈ history.getLast?, b.dispatched = [] → states ≠ [] → ∃ n ∈ states, TurnedBack n := by
  induction h with
  | start => exact ⟨List.IsChain.nil, by simp⟩
  | @next states states' ctx history log c rs keyLocks victims hreach hfirst hsend hans hend ih =>
      have hdist := hreach.distinct hd
      have hstate := hreach.frameState hd h₀ hkeeps
      refine ⟨ih.1.append (List.IsChain.singleton _) fun b hb b' hb' => ?_,
        fun b hb hnone hleft => ?_⟩
      · -- after an empty batch somebody was turned back, and this one sends it
        by_cases hb_none : b.dispatched = []
        · have hstates : states ≠ [] := by
            intro hnil
            rw [hfirst hnil] at hb
            cases hb
          simp only [List.head?_cons, Option.mem_def, Option.some.injEq] at hb'
          rw [← hb']
          exact Or.inr (sendAll_turnedBack hdist hstate (ih.2 b hb hb_none hstates) hsend)
        · exact Or.inl hb_none
      · simp only [List.getLast?_concat, Option.mem_def, Option.some.injEq] at hb
        subst hb
        -- the end of a batch loses no state, so there were some before it
        have hvisited : c.visited ≠ [] := by
          intro hnil
          have hperm := (endBatch_contexts (by simp [hnil, KeyedByContext])
            (by simp [hnil, contexts]) hend).1
          rw [hnil] at hperm
          exact hleft (List.map_eq_nil_iff.mp (List.perm_nil.mp hperm))
        obtain ⟨before, n, after, hsplit, hwait, hround⟩ :=
          roundEnd_quiet hdist hstate hsend hans hnone hvisited
        rw [hround] at hend
        cases hend
        obtain ⟨m, hw⟩ := hwait n (by simp [hsplit])
        exact ⟨turnBack n, by simp, _, hw.turnBack.message, rfl⟩

/-- **Deadlock resolution makes progress.**  In every run with executors that
keep context and sequence number: when a batch is complete, has sent nothing
and transactions are left, all of these wait for a key, `checkBatch` turns
exactly one of them back and starts a batch whose traversal sends something; and
of two batches in a row one has sent something. -/
theorem deadLock_progress {executors : Executors} (hkeeps : executors.KeepsFrame)
    {env : ExecuteEnv} (hstart : env.startContextID = 0) (block : Block) {m : Machine}
    (h : Machine.Steps (env.blockEnv block) env.staticCall executors (dmtStart env block) m) :
    (m.phase = .batching → m.log.status.allSended = true →
      m.log.status.received = m.log.status.total → m.log.status.total = 0 → m.states ≠ [] →
      (∀ k ∈ m.states, ∃ message, k.2.message = some message ∧ message.type = .KEY_LOCK) ∧
      ∃ before n after log c, m.states = before ++ n :: after ∧
        m.checkBatch env.staticCall = Machine.startBatch (before ++ turnBack n :: after) m.log.ctx
          (m.history ++ [⟨[], m.log.erased, [n.2.contextID]⟩]) ∧
        sendAll (env.blockEnv block) (before ++ turnBack n :: after) m.log.ctx = .ok (log, c) ∧
        log.dispatched ≠ []) ∧
    m.history.IsChain fun b b' => b.dispatched ≠ [] ∨ b'.dispatched ≠ [] := by
  have hd := distinct_blockStates env block
  have h₀ := frameState_blockStates hstart block
  have hexp := Steps.explained hd h
  constructor
  · intro hphase hall hreceived htotal hleft
    obtain ⟨states, ctx, hreach, hfirst, hm⟩ := hexp.batching hphase
    have hdist := hreach.distinct hd
    have hstate := hreach.frameState hd h₀ hkeeps
    obtain ⟨log, c, hsend, hans, hend, hstates, b, hlog⟩ := hm.complete hdist hall hreceived
    have hshape := (sendReach_of_sendAll hsend).shape hdist.keyed hdist.nodup
    have hnone : log.dispatched = [] := by
      rw [hlog] at htotal
      exact hshape.dispatched_nil htotal
    rw [hans.nil hnone, map_applyReplies_nil] at hstates
    have hround := roundEnd_quiet hdist hstate hsend hans hnone (hstates ▸ hleft)
    obtain ⟨before, n, after, hsplit, hwait, hround⟩ := hround
    have hcheck : m.checkBatch env.staticCall
        = Machine.startBatch (before ++ turnBack n :: after) m.log.ctx
          (m.history ++ [⟨[], m.log.erased, [n.2.contextID]⟩]) := by
      have hpending : m.log.status.callbackExecuted = false := by
        rw [hlog]
        exact hshape.pending
      have hsent : m.log.dispatched = [] := by
        rw [hlog]
        exact hnone
      have hlocks : m.log.ctx.keyLocks = log.ctx.keyLocks := by
        rw [hlog]
        rfl
      unfold Machine.checkBatch
      rw [if_pos ⟨hall, hreceived, hpending⟩, hend, hround]
      simp [Machine.afterBatch, hsent, hlocks.symm]
    -- the next batch starts from a state reached by rounds, with somebody turned back
    have hnext := hreach.next hfirst hsend hans hround
    have hctx : m.log.ctx = { log.ctx with keyLocks := log.ctx.keyLocks } := by
      rw [hlog]
      rfl
    obtain ⟨log', c', hsend'⟩ := sendAll_ok (env.blockEnv block) (hnext.distinct hd)
      (hnext.frameState hd h₀ hkeeps)
    obtain ⟨message, hw⟩ := hwait n (by simp [hsplit])
    refine ⟨fun k hk => ?_, before, n, after, log', c', hstates.trans hsplit, hcheck,
      hctx ▸ hsend', sendAll_turnedBack (hnext.distinct hd) (hnext.frameState hd h₀ hkeeps)
        ⟨turnBack n, by simp, _, hw.turnBack.message, rfl⟩ hsend'⟩
    obtain ⟨message', hw'⟩ := hwait k (hstates ▸ hk)
    exact ⟨message', hw'.message, hw'.type⟩
  · obtain ⟨states, ctx, hreach⟩ := hexp.reaches
    exact (hreach.progress hd h₀ hkeeps).1

/-- The other one of the contracts `a` and `b`. -/
def partner (contract : String) : String := if contract = "a" then "b" else "a"

/-- Executors under which `a` and `b` call each other with the key `k` locked and
then ask for the key `k` of the contract they are in. -/
def embracing (_ : List (List ExecutionMessage)) (message : ExecutionMessage) : Reply :=
  if message.toAddr = "" then .null
  else match message.type with
  | .TXHASH =>
      .message { message with type := .MESSAGE, fromAddr := message.toAddr
                              toAddr := partner message.toAddr
                              keyLocks := ["k"].filter fun key => key ∉ message.keyLocks }
  | .MESSAGE =>
      .message { message with type := .KEY_LOCK, fromAddr := message.toAddr
                              keyLockAcquired := "k", keyLocks := [] }
  | _ => .message { message with type := .FINISHED, fromAddr := message.toAddr, keyLocks := [] }

theorem embracing_keepsFrame : (Executors.ofFun embracing plainRoot).KeepsFrame where
  contextID := by
    intro before message r h
    simp only [Executors.ofFun, embracing] at h
    split_ifs at h
    split at h <;> cases h <;> rfl
  seq := by
    intro before message r h
    simp only [Executors.ofFun, embracing] at h
    split_ifs at h
    split at h <;> cases h <;> rfl

/-- Two calls that wait for each other: the third batch sends nothing. -/
theorem deadLock_progress_two_calls :
    ∃ (m : Machine) (before after : List Node) (n : Node),
      m.states.length = 2 ∧ m.states = before ++ n :: after ∧
      (m.checkBatch false).states = before ++ turnBack n :: after := by
  have h := plainRun_steps (callsTo ["a", "b"]) embracing
    [.visit, .visit, .allSended, .reply 0, .reply 1, .visit, .visit, .allSended, .reply 0,
      .reply 1, .visit, .visit, .allSended]
  obtain ⟨-, before, n, after, log, c, hsplit, hcheck, -⟩ :=
    (deadLock_progress embracing_keepsFrame rfl _ h).1 (by decide +kernel) (by decide +kernel)
      (by decide +kernel) (by decide +kernel) (by decide +kernel)
  exact ⟨_, before, after, n, by decide +kernel, hsplit, congrArg Machine.states hcheck⟩

end BcosScheduler
