/-
BcosScheduler/Isolation.lean

What the key locks are for: a call frame that is suspended keeps its keys.

A frame that calls another contract or waits for a key names in its reply the
keys it has used.  From the end of that batch until it returns, every message
that goes to its contract for another transaction lists these keys as taken, so
an executor that respects the list cannot touch them; and no other transaction
can come to hold one of them.

A run is recorded with the replies of its completed batches (`RecordedRun`).
`HeldInv` says that the lock graph has the keys of suspended frames and that the
messages of the current batch list them; the step lemmas follow the traversal,
which only adds locks, and the pass, which releases returned frames only.
-/
import BcosScheduler.FailingReply
import BcosScheduler.KeyLockSafety

namespace BcosScheduler

/-- The replies of one batch. -/
abbrev BatchReplies := List (ContextID × Reply)

/-- A run of `DMTExecute` with the replies of its completed batches. -/
inductive RecordedRun (env : BlockEnv) (staticCall : Bool) (executors : Executors)
    (start : Machine) : List BatchReplies → Machine → Prop
  | start : RecordedRun env staticCall executors start [] start
  | inBatch {records : List BatchReplies} {m m' : Machine} :
      RecordedRun env staticCall executors start records m →
      Machine.Step env staticCall executors m m' → m'.history = m.history →
      RecordedRun env staticCall executors start records m'
  | nextBatch {records : List BatchReplies} {m k : Machine} :
      RecordedRun env staticCall executors start records m → m.phase = .batching →
      m.Checks executors k → (k.checkBatch staticCall).history ≠ m.history →
      RecordedRun env staticCall executors start (records ++ [k.replied])
        (k.checkBatch staticCall)

/-- The frame that replied with `r` has returned. -/
def ReturnsFrame (c : ContextID) (r : ExecutionMessage) (rs : BatchReplies) : Prop :=
  ∃ r', (c, Reply.message r') ∈ rs ∧ r'.returns ∧ r'.seq = r.seq

/-- With the reply `r` a frame of the transaction was suspended in a completed batch,
and it has not returned since. -/
def SuspendedBy (records : List BatchReplies) (c : ContextID) (r : ExecutionMessage) : Prop :=
  r.suspends ∧ ∃ rs, (c, Reply.message r) ∈ rs ∧
    LockTable.Since rs (ReturnsFrame c r) records

/-- Suspended frames own their keys, and the messages of the batch list them. -/
structure HeldInv (records : List BatchReplies) (m : Machine) : Prop where
  owned : ∀ c r, SuspendedBy records c r → ∀ k ∈ r.asks,
    m.log.ctx.keyLocks.table.own k c r.seq
  published : ∀ c r, SuspendedBy records c r → ∀ d ∈ m.log.dispatched, d.contextID ≠ c →
    d.message.toAddr = r.fromAddr → ∀ key ∈ r.keyLocks, key ∈ d.message.keyLocks

variable {env : BlockEnv} {executors : Executors} {staticCall : Bool} {start : Machine}
  {states states₀ nodes active : List Node} {ctx ctx₀ : SendContext} {log log' : SendLog}
  {c c' : Cursor} {n : Node} {rest rest' : List Node} {history : List BatchLog}
  {records : List BatchReplies} {rs : BatchReplies} {m m' k : Machine} {i : ContextID}
  {r : ExecutionMessage}

/-! ### Recorded runs are runs -/

/-- The check of the sender or of a handler is a step. -/
theorem Machine.Checks.step (hphase : m.phase = .batching) (h : m.Checks executors k) :
    Machine.Step env staticCall executors m (k.checkBatch staticCall) := by
  cases h with
  | sender htodo hall => exact .check hphase htodo hall
  | handler hmem hnew hr => exact .reply hphase hmem hnew hr

theorem RecordedRun.steps (h : RecordedRun env staticCall executors start records m) :
    Machine.Steps env staticCall executors start m := by
  induction h with
  | start => exact .refl
  | inBatch _ hstep _ ih => exact ih.tail hstep
  | nextBatch _ hphase hchecks _ ih => exact ih.tail (hchecks.step hphase)

/-- Every run can be recorded. -/
theorem recorded_of_steps (h : Machine.Steps env staticCall executors start m) :
    ∃ records, RecordedRun env staticCall executors start records m := by
  induction h with
  | refl => exact ⟨[], .start⟩
  | @tail m m' _ hstep ih =>
      obtain ⟨records, hrun⟩ := ih
      by_cases hsame : m'.history = m.history
      · exact ⟨records, hrun.inBatch hstep hsame⟩
      · cases hstep with
        | visit _ _ =>
            refine absurd ?_ hsame
            unfold Machine.visit
            split <;> rfl
        | allSended => exact absurd rfl hsame
        | check hphase htodo hall => exact ⟨_, hrun.nextBatch hphase (.sender htodo hall) hsame⟩
        | reply hphase hmem hnew hr =>
            exact ⟨_, hrun.nextBatch hphase (.handler hmem hnew hr) hsame⟩
        | @hash answer _ _ =>
            refine absurd ?_ hsame
            cases answer <;> rfl

/-! ### The traversal -/

/-- Nobody loses a key by an acquire. -/
theorem own_acquireKeyLock {g : GraphKeyLocks} (hwf : g.Wf) (contract key : String)
    (c : ContextID) (s : Seq) {k : KeyLock} {j : ContextID} {r : Seq} (h : g.table.own k j r) :
    (g.acquireKeyLock contract key c s).1.table.own k j r := by
  rw [hwf.table_acquireKeyLock]
  by_cases hfree : g.table.Free (contract, key) c
  · rw [LockTable.acquire_of_free hfree]
    exact Or.inl h
  · rw [LockTable.acquire_of_not_free hfree]
    exact h

/-- The locks a message is sent with. -/
theorem own_prepares {state : ExecutiveState} {message message' : ExecutionMessage}
    {callStack : List Seq} {currentSeq : Seq} {keyLocks : GraphKeyLocks} {created : Bool}
    (hwf : ctx.keyLocks.Wf)
    (h : Prepares env ctx state message callStack currentSeq keyLocks message' created) :
    keyLocks.Wf ∧ ∀ {k j s}, ctx.keyLocks.table.own k j s → keyLocks.table.own k j s := by
  cases h with
  | retry => exact ⟨hwf.acquireKeyLock .., own_acquireKeyLock hwf _ _ _ _⟩
  | push | pop | revertKeyLock | sendBack => exact ⟨hwf, id⟩

/-- A turn of the traversal frees no key, and a new message lists all keys other
transactions own on its contract. -/
theorem sendStep_locks (hwf : log.ctx.keyLocks.Wf)
    (h : traverseStep (sendCallback env) n rest log c = .ok (log', c', rest')) :
    (∀ {k j s}, log.ctx.keyLocks.table.own k j s → log'.ctx.keyLocks.table.own k j s) ∧
    ∀ d ∈ log'.dispatched, d ∈ log.dispatched ∨ ∀ key j s,
      log'.ctx.keyLocks.table.own (d.message.toAddr, key) j s → j ≠ d.contextID →
      key ∈ d.message.keyLocks := by
  rcases sendStep_cases h with ⟨-, rfl, -, -⟩ | ⟨-, hint, state, hsends, -⟩
  · exact ⟨id, fun d hd => Or.inl hd⟩
  · cases hsends with
    | error | skip | erase => exact ⟨id, fun d hd => Or.inl hd⟩
    | wait => exact ⟨own_acquireKeyLock hwf _ _ _ _, fun d hd => Or.inl hd⟩
    | send _ _ _ hprep =>
        obtain ⟨hwf', hown⟩ := own_prepares hwf hprep
        refine ⟨hown, fun d hd => ?_⟩
        rcases List.mem_append.mp hd with hd | hd
        · exact Or.inl hd
        · rw [List.mem_singleton.mp hd]
          exact Or.inr fun key j s howns hne =>
            hwf'.mem_getKeyLocksNotHoldingByContext.mpr ⟨j, s, howns, hne⟩

theorem HeldInv.visit (h : HeldInv records m) (hwf : m.log.ctx.keyLocks.Wf) :
    HeldInv records (m.visit env n rest) := by
  unfold Machine.visit
  split
  next => exact ⟨h.owned, h.published⟩
  next log' c' todo hstep =>
    obtain ⟨hown, hnew⟩ := sendStep_locks hwf hstep
    refine ⟨fun c r hs k hk => hown (h.owned c r hs k hk), fun c r hs d hd hne hto key hkey => ?_⟩
    rcases hnew d hd with hold | hlists
    · exact h.published c r hs d hold hne hto key hkey
    · have howned : log'.ctx.keyLocks.table.own (d.message.toAddr, key) c r.seq :=
        hown (h.owned c r hs _ ⟨hto, hkey⟩)
      exact hlists key c r.seq howned hne.symm

/-! ### The pass -/

/-- The message the pass finds in a state: the reply of this batch, or a request for
a key that nobody replied to. -/
def PassMessage (rs : BatchReplies) (n : Node) : Prop :=
  ∃ m, n.2.message = some m ∧
    ((n.2.contextID, Reply.message m) ∈ rs ∨ n.2.contextID ∉ rs.map Prod.fst ∧ m.suspends)

/-- In the pass: who owned a key owns it unless its frame returns in this batch, and
who asks for one owns it or is still to be visited. -/
structure HeldInPass (rs : BatchReplies) (before : Locks) (t : Locks) (active : List Node) :
    Prop where
  messages : ∀ n ∈ active, PassMessage rs n
  kept : ∀ {k i s}, before.own k i s →
    (∀ r, (i, Reply.message r) ∈ rs → r.returns → r.seq ≠ s) → t.own k i s
  asked : ∀ {i r}, (i, Reply.message r) ∈ rs → r.suspends → ∀ k ∈ r.asks,
    t.own k i r.seq ∨ i ∈ contexts active

/-- A context has one reply in a batch. -/
theorem reply_unique (hnodup : (rs.map Prod.fst).Nodup) {a b : Reply} (ha : (i, a) ∈ rs)
    (hb : (i, b) ∈ rs) : a = b :=
  congrArg Prod.snd (List.inj_on_of_nodup_map hnodup ha hb rfl)

/-- The reply of the node that is visited. -/
theorem PassMessage.eq_of_mem (h : PassMessage rs n) (hnodup : (rs.map Prod.fst).Nodup)
    {m r : ExecutionMessage} (hmsg : n.2.message = some m)
    (hr : (n.2.contextID, Reply.message r) ∈ rs) : r = m := by
  obtain ⟨m', hm', hmem | ⟨hnot, -⟩⟩ := h
  · obtain rfl := Option.some.inj (hm'.symm.trans hmsg)
    exact Reply.message.inj (reply_unique hnodup hr hmem)
  · exact absurd (List.mem_map.mpr ⟨_, hr, rfl⟩) hnot

theorem HeldInPass.step {before : Locks} (hnodup : (rs.map Prod.fst).Nodup) {s s' : PassContext}
    {hint : TraverseHint} {state' : ExecutiveState}
    (hsettled : Settled nodes (n :: active) s.keyLocks)
    (h : HeldInPass rs before s.keyLocks.table (n :: active)) (hskip : n.2.skip = false)
    (hcall : keyLockCallback s n.2 = .ok (hint, s', state')) :
    HeldInPass rs before s'.keyLocks.table active := by
  obtain ⟨-, m, frames, hidle, -⟩ := hsettled.framed n (by simp)
  have hself := h.messages n (by simp)
  have hmessages : ∀ k ∈ active, PassMessage rs k := fun k hk => h.messages k (by simp [hk])
  -- the frame takes keys, returns and loses its keys, or neither
  obtain ⟨-, ⟨hsus, -, htab⟩ | ⟨hret, htab⟩ | ⟨hsus, -, htab⟩⟩ :=
    keyLockCallback_table hsettled.wf hskip hidle hcall
  · refine ⟨hmessages, fun hown hstay => ?_, fun {i r} hr hrsus k hk => ?_⟩
    · rw [htab]
      exact Or.inl (h.kept hown hstay)
    · rw [htab]
      rcases h.asked hr hrsus k hk with hown | hmem
      · exact Or.inl (Or.inl hown)
      · rcases List.mem_cons.mp hmem with rfl | hmem
        · obtain rfl := hself.eq_of_mem hnodup hidle.message hr
          exact Or.inl (Or.inr ⟨hk, rfl, rfl⟩)
        · exact Or.inr hmem
  · have hnot := fun hsus => ExecutionMessage.not_returns_of_suspends hsus hret
    have hreply : (n.2.contextID, Reply.message m) ∈ rs := by
      obtain ⟨m', hm', hmem | ⟨-, hsus⟩⟩ := hself
      · rwa [Option.some.inj (hm'.symm.trans hidle.message)] at hmem
      · rw [Option.some.inj (hm'.symm.trans hidle.message)] at hsus
        exact absurd hsus hnot
    refine ⟨hmessages, fun {k i q} hown hstay => ?_, fun {i r} hr hrsus k hk => ?_⟩
    · rw [htab]
      refine ⟨h.kept hown hstay, ?_⟩
      rintro ⟨rfl, rfl⟩
      exact hstay m hreply hret rfl
    · -- the frame that returns here is not the one that asks
      have hother : i ≠ n.2.contextID := by
        rintro rfl
        obtain rfl := hself.eq_of_mem hnodup hidle.message hr
        exact hnot hrsus
      rw [htab]
      rcases h.asked hr hrsus k hk with hown | hmem
      · exact Or.inl ⟨hown, fun heq => hother heq.1⟩
      · exact Or.inr ((List.mem_cons.mp hmem).resolve_left hother)
  · refine ⟨hmessages, fun hown hstay => ?_, fun {i r} hr hrsus k hk => ?_⟩
    · rw [htab]
      exact h.kept hown hstay
    · rw [htab]
      rcases h.asked hr hrsus k hk with hown | hmem
      · exact Or.inl hown
      · rcases List.mem_cons.mp hmem with rfl | hmem
        · obtain rfl := hself.eq_of_mem hnodup hidle.message hr
          exact absurd hrsus hsus
        · exact Or.inr hmem

/-- What the replies leave for the pass. -/
theorem FrameInv.heldInPass (h : FrameInv log c []) (hsent : log.sentTo.Nodup)
    (hans : Answers executors history log rs) (hok : ∀ p ∈ rs, p.2.failed = false)
    (hact : ActiveNodes log.ctx.keyLocks.table c.visited active) (hsub : active ⊆ c.visited) :
    HeldInPass rs log.ctx.keyLocks.table log.ctx.keyLocks.table
      (active.map (applyReplies rs)) := by
  have hinFlight : ∀ i ∈ rs.map Prod.fst, ∃ n ∈ c.visited, n.2.contextID = i ∧
      n.2.message = none := by
    intro i hi
    rw [hans.perm.mem_iff] at hi
    obtain ⟨d, hd, rfl⟩ := List.mem_map.mp hi
    obtain ⟨n, hn, hf⟩ := h.sent d hd
    exact ⟨n, hn, hf.sentFor.symm, hf.message⟩
  have hctx : ∀ n : Node, (applyReplies rs n).2.contextID = n.2.contextID := fun n =>
    (applyReplies_frame rs n).2.contextID
  refine ⟨fun k hk => ?_, fun hown _ => hown, fun {i r} hr _ _ _ => Or.inr ?_⟩
  · obtain ⟨n, hn, rfl⟩ := List.mem_map.mp hk
    unfold PassMessage
    rw [hctx]
    by_cases hmem : n.2.contextID ∈ rs.map Prod.fst
    · obtain ⟨⟨i, reply⟩, hp, rfl⟩ := List.mem_map.mp hmem
      rw [applyReplies_of_mem (hans.nodup hsent) hp]
      have hnot := hok _ hp
      cases reply with
      | error | null => simp [Reply.failed] at hnot
      | message r => exact ⟨r, rfl, Or.inl hp⟩
    · -- nobody replied, so the state was not sent: it waits
      rw [applyReplies_of_notMem hmem]
      rcases hact.2 n hn with hnone | ⟨m, hw⟩
      · rcases h.behind n (hsub hn) with ⟨m, hidle⟩ | ⟨d, hd, hf⟩
        · exact absurd (hnone.symm.trans hidle.message) (by simp)
        · refine absurd ?_ hmem
          rw [hans.perm.mem_iff, ← hf.sentFor]
          exact List.mem_map.mpr ⟨d, hd, rfl⟩
      · exact ⟨m, hw.message, Or.inr ⟨hmem, Or.inr hw.type⟩⟩
  · obtain ⟨n, hn, rfl, hnone⟩ := hinFlight i (List.mem_map.mpr ⟨_, hr, rfl⟩)
    rw [contexts_map_applyReplies]
    exact List.mem_map.mpr ⟨n, hact.1 n hn hnone, rfl⟩

/-- A batch that goes on leaves their keys to the frames that do not return, and
gives the frames that are suspended in it theirs. -/
theorem roundEnd_held (hd : DistinctContexts states) (hstate : FrameState states ctx.keyLocks)
    (hkeeps : executors.KeepsFrame) (hsend : sendAll env states ctx = .ok (log, c))
    (hans : Answers executors history log rs) {states' : List Node} {keyLocks : GraphKeyLocks}
    {victims : List ContextID} (hend : roundEnd log c rs = .next states' keyLocks victims) :
    (∀ {k i s}, log.ctx.keyLocks.table.own k i s →
      (∀ r, (i, Reply.message r) ∈ rs → r.returns → r.seq ≠ s) → keyLocks.table.own k i s) ∧
    ∀ {i r}, (i, Reply.message r) ∈ rs → r.suspends → ∀ k ∈ r.asks,
      keyLocks.table.own k i r.seq := by
  have hreach := sendReach_of_sendAll hsend
  have hshape := hreach.shape hd.keyed hd.nodup
  have hinv := hreach.frameInv hd hstate
  have hnodup : (contexts c.visited).Nodup := by simpa [contexts] using hshape.nodup hd.nodup
  rcases roundEnd_cases log c rs with ⟨e, herr⟩ | ⟨hok, ⟨-, htotal, hpass⟩ | hpass⟩
  · rw [herr] at hend
    cases hend
  · -- without messages there are no replies, and turning back leaves the locks
    have hnone := hshape.dispatched_nil htotal
    rw [hans.nil hnone, map_applyReplies_nil] at hpass
    rw [hans.nil hnone, hpass] at hend
    rw [hans.nil hnone]
    refine ⟨fun hown _ => ?_, by simp⟩
    exact runPass_keyLocks (P := fun g => g.table.own _ _ _)
      (fun hown hcall => by
        rcases deadLockCallback_cases hcall with ⟨-, rfl, -⟩ | ⟨m, -, -, rfl, -⟩ | ⟨-, rfl, -⟩
        · exact hown
        · exact hown
        · exact hown) hown hend
  · obtain ⟨active, hmarked, hact⟩ := hinv.marked
    have hsettled := hinv.settled hkeeps hnodup hshape.sentNodup hans hok hact
      hmarked.subset.subset
    have hheld := hinv.heldInPass hshape.sentNodup hans hok hact hmarked.subset.subset
    have hmarked' := hmarked.map (fun n => (applyReplies_frame rs n).1)
      (fun n => (applyReplies_frame rs n).2.skip)
    have hd' := hshape.replied hd.nodup rs
    rw [hpass] at hend
    obtain ⟨s, htraverse, rfl, -⟩ := runPass_next_iff.mp hend
    obtain ⟨⟨-, hdone⟩, -⟩ := traverseExecutive_pass
      (J := fun s active => Settled (c.visited.map (applyReplies rs)) active s.keyLocks ∧
        HeldInPass rs log.ctx.keyLocks.table s.keyLocks.table active) keyLockCallback_skip
      (fun hskip hJ hcall => by
        obtain ⟨hhint, hstate, hsettled⟩ := hJ.1.visit hd'.nodup hskip hcall
        exact ⟨hhint, hstate, hsettled,
          hJ.2.step (hans.nodup hshape.sentNodup) hJ.1 hskip hcall⟩)
      hd'.keyed hd'.nodup hmarked' ⟨hsettled, hheld⟩ htraverse
    refine ⟨hdone.kept, fun hr hsus k hk => ?_⟩
    rcases hdone.asked hr hsus k hk with hown | hmem
    · exact hown
    · simp [contexts] at hmem

/-! ### Whole runs -/

/-- Who is suspended after one more batch: since this batch, or before and without a
return in it. -/
theorem suspendedBy_concat (h : SuspendedBy (records ++ [rs]) i r) :
    r.suspends ∧ ((i, Reply.message r) ∈ rs ∨
      SuspendedBy records i r ∧ ∀ r', (i, Reply.message r') ∈ rs → r'.returns →
        r'.seq ≠ r.seq) := by
  obtain ⟨hsus, rs', hmem, hsince⟩ := h
  refine ⟨hsus, ?_⟩
  rcases LockTable.since_concat.mp hsince with rfl | ⟨hold, hnot⟩
  · exact Or.inl hmem
  · refine Or.inr ⟨⟨hsus, rs', hmem, hold⟩, fun r' hr' hret heq => ?_⟩
    exact hnot ⟨r', hr', hret, heq⟩

/-- What does not touch the locks and messages of the batch. -/
theorem HeldInv.same (h : HeldInv records m) (hctx : m'.log.ctx = m.log.ctx)
    (hdisp : m'.log.dispatched = m.log.dispatched) : HeldInv records m' :=
  ⟨hctx ▸ h.owned, hdisp ▸ h.published⟩

/-- A check that begins no new batch leaves locks and messages. -/
theorem checkBatch_same (h : (m.checkBatch staticCall).history = m.history) :
    (m.checkBatch staticCall).log.ctx = m.log.ctx ∧
      (m.checkBatch staticCall).log.dispatched = m.log.dispatched := by
  unfold Machine.checkBatch at h ⊢
  split_ifs at h ⊢
  · rcases hend : endBatch m.log.status m.states m.log.ctx.keyLocks with
      e | f | ⟨states, keyLocks, victims⟩
    · exact ⟨rfl, rfl⟩
    · exact ⟨rfl, rfl⟩
    · rw [hend] at h
      have hlen := congrArg List.length h
      simp only [Machine.afterBatch, Machine.finish] at hlen
      split_ifs at hlen <;> simp [Machine.startBatch] at hlen
  · exact ⟨rfl, rfl⟩

theorem HeldInv.nextBatch (hd : DistinctContexts states₀) (h₀ : FrameState states₀ ctx₀.keyLocks)
    (hkeeps : executors.KeepsFrame)
    (hreach : Reaches env executors states₀ ctx₀ states ctx k.history)
    (hm : Mid env executors states ctx k) (h : HeldInv records k)
    (hnext : (k.checkBatch staticCall).history ≠ k.history) :
    HeldInv (records ++ [k.replied]) (k.checkBatch staticCall) := by
  have hdist := hreach.distinct hd
  have hstate := hreach.frameState hd h₀ hkeeps
  unfold Machine.checkBatch at hnext ⊢
  split_ifs at hnext ⊢ with hcond
  · obtain ⟨log, c, hsend, hans, hend, -, b, hlog⟩ := hm.complete hdist hcond.1 hcond.2.1
    have hctx : k.log.ctx = log.ctx := by rw [hlog]; rfl
    rw [hend] at hnext ⊢
    rcases hround : roundEnd log c k.replied with e | f | ⟨states', keyLocks, victims⟩
    · rw [hround] at hnext
      exact absurd rfl hnext
    · rw [hround] at hnext
      exact absurd rfl hnext
    · obtain ⟨hkept, hasked⟩ := roundEnd_held hdist hstate hkeeps hsend hans hround
      -- nothing is sent yet, so only the locks matter
      have hown : ∀ i r, SuspendedBy (records ++ [k.replied]) i r → ∀ key ∈ r.asks,
          keyLocks.table.own key i r.seq := by
        intro i r hs key hkey
        obtain ⟨hsus, hnow | ⟨hold, hstay⟩⟩ := suspendedBy_concat hs
        · exact hasked hnow hsus key hkey
        · exact hkept (hctx ▸ h.owned i r hold key hkey) hstay
      simp only [Machine.afterBatch, Machine.finish]
      split_ifs <;> exact ⟨hown, fun _ _ _ d hd => by cases hd⟩
  · exact absurd rfl hnext

theorem HeldInv.inBatch (hd : DistinctContexts states₀) (h₀ : FrameState states₀ ctx₀.keyLocks)
    (hkeeps : executors.KeepsFrame)
    (hexp : Explained env executors staticCall states₀ ctx₀ m) (h : HeldInv records m)
    (hstep : Machine.Step env staticCall executors m m') (hsame : m'.history = m.history) :
    HeldInv records m' := by
  cases hstep with
  | visit hphase htodo =>
      obtain ⟨states, ctx, hreach, -, hm⟩ := hexp.batching hphase
      exact h.visit (hm.live (hreach.distinct hd) (hreach.frameState hd h₀ hkeeps)).1
  | allSended _ _ => exact h.same rfl rfl
  | check _ _ _ =>
      obtain ⟨hctx, hdisp⟩ := checkBatch_same hsame
      exact h.same hctx hdisp
  | reply _ _ _ _ =>
      obtain ⟨hctx, hdisp⟩ := checkBatch_same hsame
      exact h.same hctx hdisp
  | @hash answer _ _ => cases answer <;> exact h.same rfl rfl

theorem RecordedRun.heldInv (hd : DistinctContexts states₀)
    (h₀ : FrameState states₀ ctx₀.keyLocks) (hkeeps : executors.KeepsFrame)
    (h : RecordedRun env staticCall executors (Machine.startBatch states₀ ctx₀ []) records m) :
    HeldInv records m := by
  induction h with
  | start =>
      have hnone : ∀ i r, ¬ SuspendedBy [] i r := fun i r hs => by
        obtain ⟨-, rs, -, hsince⟩ := hs
        exact LockTable.since_nil hsince
      exact ⟨fun i r hs => absurd hs (hnone i r), fun i r hs => absurd hs (hnone i r)⟩
  | inBatch hrun hstep hsame ih =>
      exact ih.inBatch hd h₀ hkeeps (Steps.explained hd hrun.steps) hstep hsame
  | @nextBatch records m k hrun hphase hchecks hnext ih =>
      obtain ⟨states, ctx, hreach, -, hm⟩ := (Steps.explained hd hrun.steps).batching hphase
      have hmk := hm.checks (hreach.distinct hd) hchecks
      have hk : HeldInv records k ∧ k.history = m.history := by
        cases hchecks with
        | sender => exact ⟨ih, rfl⟩
        | handler => exact ⟨ih.same rfl rfl, rfl⟩
      exact hk.1.nextBatch hd h₀ hkeeps (hk.2 ▸ hreach) hmk (hk.2 ▸ hnext)

/-- **Suspended frames are isolated.**  In every run of a block without DAG transactions with
executors that keep context and sequence number, whatever replies its completed batches
had: when a frame of transaction `c` was suspended by the reply `r`, from the end of that batch
until it returns every message that is sent to its contract for another transaction lists all
keys of `r` as taken; and two transactions never have frames suspended with the same key of the
same contract. -/
theorem suspended_frames_isolated (hkeeps : executors.KeepsFrame) {env : ExecuteEnv}
    (hstart : env.startContextID = 0) (block : Block)
    (h : Machine.Steps (env.blockEnv block) env.staticCall executors (dmtStart env block) m) :
    (∃ records, RecordedRun (env.blockEnv block) env.staticCall executors (dmtStart env block)
      records m) ∧
    ∀ records, RecordedRun (env.blockEnv block) env.staticCall executors (dmtStart env block)
        records m →
      ∀ c r, SuspendedBy records c r →
        (∀ d ∈ m.log.dispatched, d.contextID ≠ c → d.message.toAddr = r.fromAddr →
          ∀ key ∈ r.keyLocks, key ∈ d.message.keyLocks) ∧
        ∀ c' r', SuspendedBy records c' r' → r'.fromAddr = r.fromAddr →
          ∀ key ∈ r.keyLocks, key ∈ r'.keyLocks → c' = c := by
  have hd := distinct_blockStates env block
  have h₀ := frameState_blockStates hstart block
  refine ⟨recorded_of_steps h, fun records hrecorded c r hs => ?_⟩
  have hheld := hrecorded.heldInv hd h₀ hkeeps
  refine ⟨fun d hdisp hne hto => hheld.published c r hs d hdisp hne hto,
    fun c' r' hs' hfrom key hkey hkey' => ?_⟩
  -- both own the key, and the table is exclusive
  obtain ⟨states, ctx, log, cursor, todo, hreach, hsend, hctx, -⟩ := (Steps.explained hd h).stop
  have hinv := hsend.frameInv (hreach.distinct hd) (hreach.frameState hd h₀ hkeeps)
  have hown := hheld.owned c r hs (r.fromAddr, key) ⟨rfl, hkey⟩
  have hown' := hheld.owned c' r' hs' (r.fromAddr, key) ⟨hfrom.symm, hkey'⟩
  rw [hctx] at hown hown'
  exact hinv.exclusive hown' hown

/-! ### Recording a scheduled run -/

section Schedule

variable (env : BlockEnv) (staticCall : Bool)
  (reply : List (List ExecutionMessage) → ExecutionMessage → Reply)
  (hash : List (List ExecutionMessage) → Except Error H256)

/-- The replies of the batch that a move completes, if it completes one. -/
def Machine.completed (m : Machine) (a : Machine.Move) : List BatchReplies :=
  if (m.move env staticCall reply hash a).history = m.history then []
  else
    match a with
    | .reply c =>
        match m.log.dispatched.find? fun d => d.contextID = c with
        | some d => [m.replied ++ [(c, reply m.sentBefore d.message)]]
        | none => []
    | _ => [m.replied]

/-- The replies of the batches that a schedule completes. -/
def Machine.completedAlong (m : Machine) : List Machine.Move → List BatchReplies
  | [] => []
  | a :: rest => m.completed env staticCall reply hash a ++
      (m.move env staticCall reply hash a).completedAlong rest

end Schedule

theorem RecordedRun.move {reply : List (List ExecutionMessage) → ExecutionMessage → Reply}
    {hash : List (List ExecutionMessage) → Except Error H256}
    (h : RecordedRun env staticCall (.ofFun reply hash) start records m) (a : Machine.Move) :
    RecordedRun env staticCall (.ofFun reply hash) start
      (records ++ m.completed env staticCall reply hash a)
      (m.move env staticCall reply hash a) := by
  unfold Machine.completed
  split_ifs with hsame
  · rw [List.append_nil]
    rcases (Machine.move_cases m a : m.move env staticCall reply hash a = m ∨ _)
      with heq | hstep
    · rw [heq]
      exact h
    · exact h.inBatch hstep hsame
  · cases a with
    | visit =>
        refine absurd ?_ hsame
        unfold Machine.move
        dsimp only
        split
        · split_ifs
          · unfold Machine.visit
            split <;> rfl
          · rfl
        · rfl
    | allSended =>
        refine absurd ?_ hsame
        unfold Machine.move
        dsimp only
        split_ifs <;> rfl
    | check =>
        unfold Machine.move at hsame ⊢
        dsimp only at hsame ⊢
        split_ifs at hsame ⊢ with hcond
        · exact h.nextBatch hcond.1 (.sender hcond.2.1 hcond.2.2) hsame
        · exact absurd rfl hsame
    | reply i =>
        unfold Machine.move at hsame ⊢
        dsimp only at hsame ⊢
        rcases hd : m.log.dispatched.find? fun d => d.contextID = i with _ | d
        · simp only [hd] at hsame
          exact absurd trivial hsame
        · have hctx : d.contextID = i := by simpa using List.find?_some hd
          subst hctx
          simp only [hd] at hsame ⊢
          split_ifs at hsame ⊢ with hcond
          · exact h.nextBatch hcond.1
              (.handler (List.mem_of_find?_eq_some hd) hcond.2 rfl) hsame
          · exact absurd rfl hsame
    | hash =>
        refine absurd ?_ hsame
        unfold Machine.move
        dsimp only
        split_ifs
        · cases hash m.sentBefore <;> rfl
        · rfl

theorem RecordedRun.along {reply : List (List ExecutionMessage) → ExecutionMessage → Reply}
    {hash : List (List ExecutionMessage) → Except Error H256} (schedule : List Machine.Move) :
    ∀ {records : List BatchReplies} {m : Machine},
      RecordedRun env staticCall (.ofFun reply hash) start records m →
      RecordedRun env staticCall (.ofFun reply hash) start
        (records ++ m.completedAlong env staticCall reply hash schedule)
        (m.run env staticCall reply hash schedule) := by
  induction schedule with
  | nil =>
      intro records m h
      rw [Machine.completedAlong, List.append_nil]
      exact h
  | cons a rest ih =>
      intro records m h
      rw [Machine.completedAlong, ← List.append_assoc]
      exact ih (h.move a)

/-- The reply with which a call to `contract` is suspended in `embracing`. -/
def embracingReply (i : ContextID) (contract : String) : ExecutionMessage where
  type := .MESSAGE
  contextID := i
  transactionHash := 1
  gasAvailable := transactionGas
  fromAddr := contract
  toAddr := partner contract
  keyLocks := ["k"]

/-- Both calls are sent, suspended, and sent on to the contract of the other one. -/
def embracedSchedule : List Machine.Move :=
  [.visit, .visit, .allSended, .reply 0, .reply 1, .visit, .visit]

def embracedRun : Machine := plainRun (callsTo ["a", "b"]) embracing embracedSchedule

/-- The first one is told not to touch `k` of `b`, which the second one holds. -/
theorem suspended_frames_isolated_two_calls :
    embracedRun.log.dispatched.map (fun d => (d.contextID, d.message.toAddr))
      = [(1, "a"), (0, "b")] ∧
    ∀ d ∈ embracedRun.log.dispatched, d.contextID ≠ 1 → d.message.toAddr = "b" →
      "k" ∈ d.message.keyLocks := by
  have hrun : RecordedRun (plainEnv.blockEnv (callsTo ["a", "b"])) false
      (.ofFun embracing plainRoot) (dmtStart plainEnv (callsTo ["a", "b"]))
      [[(0, .message (embracingReply 0 "a")), (1, .message (embracingReply 1 "b"))]]
      embracedRun := by
    have hrecords : (dmtStart plainEnv (callsTo ["a", "b"])).completedAlong
        (plainEnv.blockEnv (callsTo ["a", "b"])) false embracing plainRoot embracedSchedule
        = [[(0, .message (embracingReply 0 "a")), (1, .message (embracingReply 1 "b"))]] := by
      decide +kernel
    have halong := RecordedRun.along embracedSchedule
      (.start : RecordedRun (plainEnv.blockEnv (callsTo ["a", "b"])) false
        (.ofFun embracing plainRoot) (dmtStart plainEnv (callsTo ["a", "b"])) [] _)
    rwa [hrecords, List.nil_append] at halong
  have hs : SuspendedBy
      [[(0, .message (embracingReply 0 "a")), (1, .message (embracingReply 1 "b"))]] 1
      (embracingReply 1 "b") := ⟨Or.inl rfl, _, by simp, [], [], rfl, by simp⟩
  refine ⟨by decide +kernel, fun d hd hne hto => ?_⟩
  exact ((suspended_frames_isolated embracing_keepsFrame rfl _ hrun.steps).2 _ hrun _ _ hs).1
    d hd hne hto "k" (List.mem_singleton.mpr rfl)

end BcosScheduler
