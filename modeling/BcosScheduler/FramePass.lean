/-
BcosScheduler/FramePass.lean

Locks belong to live call frames: replies, passes and whole runs.

After the replies every state has a message again (`Settled`).  The pass takes
the locks of suspended frames, which are on the call stack, and releases those
of returned frames, which the next traversal pops; the deadlock pass changes
one message.  So a batch leads from `FrameState` to `FrameState`, and no entry of
the lock graph outlives its frame.
-/
import BcosScheduler.Frames

namespace BcosScheduler

variable {env : BlockEnv} {executors : Executors} {states nodes nodes' active : List Node}
  {ctx : SendContext} {log log' : SendLog} {c c' : Cursor} {n : Node} {history : List BatchLog}
  {todo : List Node} {rs : List (ContextID × Reply)} {t : Locks} {state : ExecutiveState} {m : ExecutionMessage}
  {keyLocks : GraphKeyLocks}

/-! ### Replies -/

/-- Contexts tell nodes apart. -/
theorem eq_of_contextID (h : (contexts nodes).Nodup) {k : Node} (hn : n ∈ nodes) (hk : k ∈ nodes)
    (heq : k.2.contextID = n.2.contextID) : k = n :=
  List.inj_on_of_nodup_map h hk hn heq

theorem Answers.nodup (h : Answers executors history log rs) (hsent : log.sentTo.Nodup) :
    (rs.map Prod.fst).Nodup :=
  h.perm.nodup_iff.mpr hsent

/-- A state in flight gets the reply to its message. -/
theorem InFlight.reply {d : Dispatch} (h : InFlight d n.2) (hd : d ∈ log.dispatched)
    (hsent : log.sentTo.Nodup) (hans : Answers executors history log rs)
    (hok : ∀ p ∈ rs, p.2.failed = false) :
    ∃ r, executors.reply (messagesOf history) d.message (.message r) ∧
      applyReplies rs n = (n.1, { n.2 with message := some r }) := by
  have hmem : n.2.contextID ∈ rs.map Prod.fst := by
    rw [hans.perm.mem_iff, ← h.sentFor]
    exact List.mem_map.mpr ⟨d, hd, rfl⟩
  obtain ⟨⟨i, reply⟩, hp, rfl⟩ := List.mem_map.mp hmem
  obtain ⟨d', hd', hctx, hr⟩ := hans.reply _ hp
  obtain rfl : d' = d :=
    List.inj_on_of_nodup_map hsent hd' hd (hctx.trans h.sentFor.symm)
  have hwritten := applyReplies_of_mem (hans.nodup hsent) hp
  -- a batch that goes on has no failed reply, so the reply is a message
  have hnot := hok _ hp
  cases reply with
  | error => simp [Reply.failed] at hnot
  | null => simp [Reply.failed] at hnot
  | message r => exact ⟨r, hr, hwritten⟩

/-- Nobody else gets a reply. -/
theorem FrameInv.reply_of_idle (h : FrameInv log c []) (hnodup : (contexts c.visited).Nodup)
    (hans : Answers executors history log rs) (hn : n ∈ c.visited) (hidle : Idle n.2 m) :
    applyReplies rs n = n := by
  apply applyReplies_of_notMem
  intro hmem
  rw [hans.perm.mem_iff] at hmem
  obtain ⟨d, hd, hctx⟩ := List.mem_map.mp hmem
  obtain ⟨k, hk, hf⟩ := h.sent d hd
  obtain rfl := eq_of_contextID hnodup hn hk (hf.sentFor.symm.trans hctx)
  exact absurd (hf.message.symm.trans hidle.message) (by simp)

/-- Every state behind is as it was, or has the reply to its message. -/
theorem FrameInv.reply_cases (h : FrameInv log c []) (hnodup : (contexts c.visited).Nodup)
    (hsent : log.sentTo.Nodup) (hans : Answers executors history log rs)
    (hok : ∀ p ∈ rs, p.2.failed = false) (hn : n ∈ c.visited) :
    (applyReplies rs n = n ∧ ∃ m, Idle n.2 m) ∨
    ∃ d ∈ log.dispatched, InFlight d n.2 ∧
      ∃ r, executors.reply (messagesOf history) d.message (.message r) ∧
        applyReplies rs n = (n.1, { n.2 with message := some r }) := by
  rcases h.behind n hn with ⟨m, hidle⟩ | ⟨d, hd, hf⟩
  · exact Or.inl ⟨h.reply_of_idle hnodup hans hn hidle, m, hidle⟩
  · exact Or.inr ⟨d, hd, hf, hf.reply hd hsent hans hok⟩

/-- Everybody has a message again; the pass will act on `active`. -/
structure Settled (nodes active : List Node) (keyLocks : GraphKeyLocks) : Prop where
  wf : keyLocks.Wf
  exclusive : keyLocks.table.Exclusive
  idle : ∀ n ∈ nodes, ∃ m, Idle n.2 m
  framed : ∀ n ∈ active, n ∈ nodes ∧ ∃ m frames, Idle n.2 m ∧ n.2.callStack = m.seq :: frames
  released : ∀ n ∈ nodes, n ∉ active → Released keyLocks.table n.2
  live : LiveFrames nodes keyLocks.table

theorem InFlight.idle {d : Dispatch} (h : InFlight d state) (hkeeps : executors.KeepsFrame)
    {before : List (List ExecutionMessage)} {r : ExecutionMessage}
    (hr : executors.reply before d.message (.message r)) :
    Idle { state with message := some r } r ∧ ∃ frames, state.callStack = r.seq :: frames := by
  obtain ⟨frames, htop⟩ := h.top
  rw [← hkeeps.seq hr] at htop
  exact ⟨⟨rfl, h.error, (hkeeps.contextID hr).trans h.contextID, Or.inr ⟨frames, htop⟩⟩,
    frames, htop⟩

theorem FrameInv.settled (h : FrameInv log c []) (hkeeps : executors.KeepsFrame)
    (hnodup : (contexts c.visited).Nodup) (hsent : log.sentTo.Nodup)
    (hans : Answers executors history log rs) (hok : ∀ p ∈ rs, p.2.failed = false)
    (hact : ActiveNodes log.ctx.keyLocks.table c.visited active) (hsub : active ⊆ c.visited) :
    Settled (c.visited.map (applyReplies rs)) (active.map (applyReplies rs)) log.ctx.keyLocks := by
  -- untouched, or in flight before and with the message of its own frame now
  have hcases : ∀ k ∈ c.visited, (applyReplies rs k = k ∧ ∃ m, Idle k.2 m) ∨
      k.2.message = none ∧ ∃ m frames, Idle (applyReplies rs k).2 m ∧
        (applyReplies rs k).2.callStack = m.seq :: frames := by
    intro k hk
    rcases h.reply_cases hnodup hsent hans hok hk with hsame | ⟨d, -, hf, r, hr, heq⟩
    · exact Or.inl hsame
    · obtain ⟨hidle, frames, htop⟩ := hf.idle hkeeps hr
      rw [heq]
      exact Or.inr ⟨hf.message, r, frames, hidle, htop⟩
  refine ⟨h.wf, h.exclusive, fun k' hk' => ?_, fun k' hk' => ?_, fun k' hk' hnot => ?_, ?_⟩
  · obtain ⟨k, hk, rfl⟩ := List.mem_map.mp hk'
    rcases hcases k hk with ⟨heq, m, hidle⟩ | ⟨-, m, -, hidle, -⟩
    · rw [heq]
      exact ⟨m, hidle⟩
    · exact ⟨m, hidle⟩
  · obtain ⟨k, hk, rfl⟩ := List.mem_map.mp hk'
    refine ⟨List.mem_map.mpr ⟨k, hsub hk, rfl⟩, ?_⟩
    rcases hcases k (hsub hk) with ⟨heq, m, hidle⟩ | ⟨-, hframed⟩
    · -- an active node that was not sent waits for a key, so it has a frame
      rcases hact.2 k hk with hnone | ⟨m', hw⟩
      · rw [hidle.message] at hnone
        cases hnone
      · obtain ⟨frames, htop⟩ := hw.toIdle.frame (by simp [hw.type]) (by simp [hw.type])
        rw [heq]
        exact ⟨m', frames, hw.toIdle, htop⟩
    · exact hframed
  · obtain ⟨k, hk, rfl⟩ := List.mem_map.mp hk'
    rcases hcases k hk with ⟨heq, -⟩ | ⟨hnone, -⟩
    · rw [heq]
      exact h.released k (by simpa using hk)
    · exact absurd (List.mem_map.mpr ⟨k, hact.1 k hk hnone, rfl⟩) hnot
  · apply h.live.mono
    intro k hk s hs _
    have hframe := (applyReplies_frame rs k).2
    exact ⟨applyReplies rs k, List.mem_map.mpr ⟨k, by simpa using hk, rfl⟩, hframe.contextID,
      by rw [hframe.callStack]; exact hs⟩

/-! ### The pass after replies -/

theorem keyLockCallback_skip (s : PassContext) (state : ExecutiveState)
    (hskip : state.skip = true) :
    keyLockCallback s state = .ok (.SKIP, s, { state with skip := false }) := by
  simp [keyLockCallback, hskip]

/-- The frame of the message is suspended, with keys to lock. -/
def ExecutionMessage.suspends (m : ExecutionMessage) : Prop :=
  m.type = .MESSAGE ∨ m.type = .KEY_LOCK

/-- What the pass does with a state without mark. -/
theorem keyLockCallback_cases {s s' : PassContext} {hint : TraverseHint}
    {state' : ExecutiveState} (hskip : state.skip = false) (hmsg : state.message = some m)
    (h : keyLockCallback s state = .ok (hint, s', state')) :
    (hint = .PASS ∨ hint = .UPDATE) ∧ state' = state ∧
    ((m.suspends ∧ ∃ g, s.keyLocks.batchAcquireKeyLock m.fromAddr m.keyLocks m.contextID m.seq
        = .ok g ∧ s' = { s with keyLocks := g }) ∨
      (m.returns ∧ s' = { s with keyLocks := s.keyLocks.releaseKeyLocks m.contextID m.seq }) ∨
      ¬ m.suspends ∧ ¬ m.returns ∧ s' = s) := by
  unfold keyLockCallback at h
  rw [hskip, hmsg] at h
  simp only [Bool.false_eq_true, if_false] at h
  split at h
  next htype =>
    split at h
    next => cases h
    next g hg =>
      cases h
      exact ⟨Or.inr rfl, rfl, Or.inl ⟨Or.inl htype, g, hg, rfl⟩⟩
  next htype =>
    split at h
    next => cases h
    next g hg =>
      cases h
      exact ⟨Or.inl rfl, rfl, Or.inl ⟨Or.inr htype, g, hg, rfl⟩⟩
  next htype =>
    cases h
    exact ⟨Or.inr rfl, rfl, Or.inr (Or.inl ⟨Or.inl htype, rfl⟩)⟩
  next htype =>
    cases h
    exact ⟨Or.inr rfl, rfl, Or.inr (Or.inl ⟨Or.inr htype, rfl⟩)⟩
  all_goals
    next htype =>
      cases h
      exact ⟨Or.inl rfl, rfl, Or.inr (Or.inr ⟨by simp [ExecutionMessage.suspends, htype],
        by simp [ExecutionMessage.returns, htype], rfl⟩)⟩

/-- The keys a message asks for. -/
def ExecutionMessage.asks (m : ExecutionMessage) : Set KeyLock :=
  {k | k.1 = m.fromAddr ∧ k.2 ∈ m.keyLocks}

/-- What the pass does to the lock table. -/
theorem keyLockCallback_table {s s' : PassContext} {hint : TraverseHint}
    {state' : ExecutiveState} (hwf : s.keyLocks.Wf) (hskip : state.skip = false)
    (hidle : Idle state m) (h : keyLockCallback s state = .ok (hint, s', state')) :
    s'.keyLocks.Wf ∧
    ((m.suspends ∧ (∀ k ∈ m.asks, s.keyLocks.table.Free k state.contextID) ∧
        s'.keyLocks.table = s.keyLocks.table.grantAll m.asks state.contextID m.seq) ∨
      (m.returns ∧ s'.keyLocks.table = s.keyLocks.table.release state.contextID m.seq) ∨
      ¬ m.suspends ∧ ¬ m.returns ∧ s'.keyLocks.table = s.keyLocks.table) := by
  rw [← hidle.contextID]
  obtain ⟨-, -, ⟨hsus, g, hg, rfl⟩ | ⟨hret, rfl⟩ | ⟨hsus, hret, rfl⟩⟩ :=
    keyLockCallback_cases hskip hidle.message h
  · obtain ⟨hfree, hspec⟩ := GraphKeyLocks.Wf.batchAcquireKeyLock_spec m.fromAddr m.contextID m.seq
      m.keyLocks hwf
    obtain ⟨hwf', htab⟩ := hspec g hg
    refine ⟨hwf', Or.inl ⟨hsus, ?_, htab⟩⟩
    rintro ⟨contract, key⟩ ⟨rfl, hkey⟩
    exact hfree.mp ⟨g, hg⟩ key hkey
  · obtain ⟨hwf', htab⟩ := hwf.releaseKeyLocks m.contextID m.seq
    exact ⟨hwf', Or.inr (Or.inl ⟨hret, htab⟩)⟩
  · exact ⟨hwf, Or.inr (Or.inr ⟨hsus, hret, rfl⟩)⟩

theorem ExecutionMessage.not_returns_of_suspends (h : m.suspends) : ¬ m.returns := by
  rcases h with htype | htype <;> simp [ExecutionMessage.returns, htype]

/-- A node the pass is done with: the one just visited, or one of another
context. -/
theorem passed_cases (hnodup : (contexts nodes).Nodup) (hn : n ∈ nodes) {k : Node} (hk : k ∈ nodes)
    (hnot : k ∉ active) : k = n ∨ k.2.contextID ≠ n.2.contextID ∧ k ∉ n :: active := by
  by_cases heq : k = n
  · exact Or.inl heq
  · exact Or.inr ⟨fun hctx => heq (eq_of_contextID hnodup hn hk hctx), by simp [heq, hnot]⟩

/-- One turn of the pass after replies. -/
theorem Settled.step (hnodup : (contexts nodes).Nodup) {s s' : PassContext} {hint : TraverseHint}
    {state' : ExecutiveState} (h : Settled nodes (n :: active) s.keyLocks)
    (hskip : n.2.skip = false) (hcall : keyLockCallback s n.2 = .ok (hint, s', state')) :
    Settled nodes active s'.keyLocks := by
  obtain ⟨hn, m, frames, hidle, htop⟩ := h.framed n (by simp)
  have hframed : ∀ k ∈ active, k ∈ nodes ∧ ∃ m frames, Idle k.2 m ∧
      k.2.callStack = m.seq :: frames := fun k hk => h.framed k (by simp [hk])
  -- the frame is suspended and takes keys, returns and loses its keys, or neither
  obtain ⟨hwf, ⟨hsus, hfree, htab⟩ | ⟨hret, htab⟩ | ⟨-, hret, htab⟩⟩ :=
    keyLockCallback_table h.wf hskip hidle hcall
  · refine ⟨hwf, ?_, h.idle, hframed, fun k hk hnot => ?_, fun i s' hholds => ?_⟩
    · rw [htab]
      exact h.exclusive.grantAll hfree _
    · rw [htab]
      rcases passed_cases hnodup hn hk hnot with rfl | ⟨hne, hnot'⟩
      · exact released_of_type hidle.message (ExecutionMessage.not_returns_of_suspends hsus)
      · intro m' hm' hret hholds
        rcases hholds.of_grantAll with hold | ⟨heq, -⟩
        · exact h.released k hk hnot' m' hm' hret hold
        · exact hne heq
    · rw [htab] at hholds
      rcases hholds.of_grantAll with hold | ⟨rfl, rfl⟩
      · exact h.live i s' hold
      · exact ⟨n, hn, rfl, by rw [htop]; exact List.mem_cons_self ..⟩
  · refine ⟨hwf, ?_, h.idle, hframed, fun k hk hnot => ?_, fun i s' hholds => ?_⟩
    · rw [htab]
      exact h.exclusive.release _ _
    · rw [htab]
      intro m' hm' hret' hholds
      obtain ⟨hold, hne⟩ := hholds.of_release
      rcases passed_cases hnodup hn hk hnot with rfl | ⟨-, hnot'⟩
      · rw [hidle.message] at hm'
        cases hm'
        exact hne ⟨rfl, rfl⟩
      · exact h.released k hk hnot' m' hm' hret' hold
    · rw [htab] at hholds
      exact h.live i s' hholds.of_release.1
  · refine ⟨hwf, ?_, h.idle, hframed, fun k hk hnot => ?_, ?_⟩
    · rw [htab]
      exact h.exclusive
    · rw [htab]
      rcases passed_cases hnodup hn hk hnot with rfl | ⟨-, hnot'⟩
      · exact released_of_type hidle.message hret
      · exact h.released k hk hnot'
    · rw [htab]
      exact h.live

/-- A turn of the pass on a node without mark changes only the locks. -/
theorem Settled.visit (hnodup : (contexts nodes).Nodup) {s s' : PassContext} {hint : TraverseHint}
    {state' : ExecutiveState} (hskip : n.2.skip = false)
    (h : Settled nodes (n :: active) s.keyLocks)
    (hcall : keyLockCallback s n.2 = .ok (hint, s', state')) :
    (hint = .PASS ∨ hint = .UPDATE) ∧ state' = n.2 ∧ Settled nodes active s'.keyLocks := by
  obtain ⟨-, m, frames, hidle, -⟩ := h.framed n (by simp)
  obtain ⟨hhint, hstate, -⟩ := keyLockCallback_cases hskip hidle.message hcall
  exact ⟨hhint, hstate, h.step hnodup hskip hcall⟩

/-- Nothing is left to be done by the pass. -/
theorem Settled.frameState (h : Settled nodes [] keyLocks)
    (hperm : (states.map Prod.snd).Perm ((nodes.map unskip).map Prod.snd)) :
    FrameState states keyLocks := by
  refine ⟨h.wf, h.exclusive, fun k hk => ?_, fun i s hholds => ?_⟩
  · have hmem := hperm.mem_iff.mp (List.mem_map.mpr ⟨k, hk, rfl⟩)
    simp only [List.map_map, List.mem_map, Function.comp_apply] at hmem
    obtain ⟨k', hk', heq⟩ := hmem
    obtain ⟨m, hidle⟩ := h.idle k' hk'
    rw [← heq]
    exact ⟨⟨m, hidle.message, hidle.error, hidle.contextID, hidle.top⟩, rfl,
      h.released k' hk' (by simp)⟩
  · obtain ⟨k, hk, rfl, hs⟩ := h.live i s hholds
    have hmem : (unskip k).2 ∈ states.map Prod.snd :=
      hperm.mem_iff.mpr (List.mem_map.mpr ⟨_, List.mem_map.mpr ⟨k, hk, rfl⟩, rfl⟩)
    obtain ⟨k', hk', heq⟩ := List.mem_map.mp hmem
    exact ⟨k', hk', by rw [heq]; rfl, by rw [heq]; exact hs⟩

/-- The pass after replies as a whole. -/
theorem Settled.pass {b : Option StateKey} {states' : List Node} {keyLocks' : GraphKeyLocks}
    {victims : List ContextID} (h : Settled nodes active keyLocks) (hd : DistinctContexts nodes)
    (hmarked : Marked none nodes active b)
    (hend : runPass keyLockCallback nodes keyLocks = .next states' keyLocks' victims) :
    FrameState states' keyLocks' := by
  obtain ⟨s, htraverse, rfl, -⟩ := runPass_next_iff.mp hend
  obtain ⟨hdone, hperm⟩ := traverseExecutive_pass
    (J := fun s active => Settled nodes active s.keyLocks) keyLockCallback_skip
    (fun hskip hJ hcall => hJ.visit hd.nodup hskip hcall) hd.keyed hd.nodup hmarked h htraverse
  exact hdone.frameState hperm

/-! ### The deadlock pass -/

/-- A deadlocked transaction is turned back. -/
def turnBack (n : Node) : Node :=
  (n.1, { n.2 with message := n.2.message.map fun m => { m with type := .REVERT_KEY_LOCK } })

/-- The deadlock pass over nodes without marks turns back the first deadlocked
transaction, if there is one. -/
theorem traverseFrom_deadLock (s : PassContext) : ∀ {todo : List Node},
    (∀ n ∈ todo, n.2.skip = false ∧ n.2.message.isSome = true) → ∀ {c : Cursor}, c.bound = none →
    ((∀ n ∈ todo, s.keyLocks.detectDeadLock n.2.contextID = false) ∧
      traverseFrom deadLockCallback todo s c = .ok (s, { c with visited := c.visited ++ todo })) ∨
    ∃ before n after, todo = before ++ n :: after ∧
      s.keyLocks.detectDeadLock n.2.contextID = true ∧
      (∀ k ∈ before, s.keyLocks.detectDeadLock k.2.contextID = false) ∧
      traverseFrom deadLockCallback todo s c
        = .ok ({ s with victims := s.victims ++ [n.2.contextID] },
            { c with visited := c.visited ++ (before ++ turnBack n :: after) }) := by
  intro todo
  induction todo with
  | nil => exact fun _ c _ => Or.inl ⟨by simp, by simp [traverseFrom]⟩
  | cons n rest ih =>
      intro hnodes c hb
      obtain ⟨hskip, hmsg⟩ := hnodes n (by simp)
      obtain ⟨m, hm⟩ := Option.isSome_iff_exists.mp hmsg
      have hj : c.jumps n = false := by simp [Cursor.jumps, hb]
      -- the pass goes on behind a node that is not deadlocked and ends at one that is
      rcases hdet : s.keyLocks.detectDeadLock n.2.contextID with _ | _
      · have hstep : traverseFrom deadLockCallback (n :: rest) s c
            = traverseFrom deadLockCallback rest s (c.keep n) := by
          rw [traverseFrom_cons]
          simp [traverseStep, hj, deadLockCallback, hskip, hdet, Cursor.advance]
        rw [hstep]
        rcases ih (fun k hk => hnodes k (by simp [hk])) (c := c.keep n) hb with
          ⟨hall, heq⟩ | ⟨before, k, after, rfl, hk, hbefore, heq⟩
        · exact Or.inl ⟨List.forall_mem_cons.mpr ⟨hdet, hall⟩, by rw [heq]; simp [Cursor.keep]⟩
        · exact Or.inr ⟨n :: before, k, after, rfl, hk,
            List.forall_mem_cons.mpr ⟨hdet, hbefore⟩, by rw [heq]; simp [Cursor.keep]⟩
      · refine Or.inr ⟨[], n, rest, rfl, hdet, by simp, ?_⟩
        rw [traverseFrom_cons]
        simp [traverseStep, hj, deadLockCallback, hskip, hdet, hm, Cursor.advance, traverseFrom,
          turnBack]

/-- How the deadlock pass ends. -/
theorem runPass_deadLock (keyLocks : GraphKeyLocks)
    (hnodes : ∀ n ∈ nodes, n.2.skip = false ∧ n.2.message.isSome = true) :
    ((∀ n ∈ nodes, keyLocks.detectDeadLock n.2.contextID = false) ∧
      runPass deadLockCallback nodes keyLocks = .next nodes keyLocks []) ∨
    ∃ before n after, nodes = before ++ n :: after ∧
      keyLocks.detectDeadLock n.2.contextID = true ∧
      (∀ k ∈ before, keyLocks.detectDeadLock k.2.contextID = false) ∧
      runPass deadLockCallback nodes keyLocks
        = .next (before ++ turnBack n :: after) keyLocks [n.2.contextID] := by
  rcases traverseFrom_deadLock { keyLocks := keyLocks } hnodes (c := {}) rfl with
    ⟨hall, heq⟩ | ⟨before, n, after, hsplit, hdet, hbefore, heq⟩
  · exact Or.inl ⟨hall, by
      simp [runPass, traverseExecutive_eq deadLockCallback_updates, heq, reinsert, Except.map]⟩
  · exact Or.inr ⟨before, n, after, hsplit, hdet, hbefore, by
      simp [runPass, traverseExecutive_eq deadLockCallback_updates, heq, reinsert, Except.map]⟩

/-- When nothing was sent, everybody behind waits. -/
theorem FrameInv.waiting (h : FrameInv log c todo) (hnone : log.dispatched = []) :
    ∀ n ∈ c.visited, n.2.skip = false ∧ ∃ m, Waiting log.ctx.keyLocks.table n.2 m := by
  obtain ⟨active, hm, -, hact⟩ := h.marked
  obtain ⟨-, rfl, hskip⟩ := hm.unmarked (h.quiet hnone).2
  intro n hn
  refine ⟨hskip n hn, ?_⟩
  rcases hact n hn with hmsg | hw
  · rcases h.behind n hn with ⟨m, hidle⟩ | ⟨d, hd, -⟩
    · exact absurd (hmsg.symm.trans hidle.message) (by simp)
    · rw [hnone] at hd
      cases hd
  · exact hw

/-- So the deadlock pass finds no mark and no missing message. -/
theorem FrameInv.waiting_unmarked (h : FrameInv log c todo) (hnone : log.dispatched = []) :
    ∀ n ∈ c.visited, n.2.skip = false ∧ n.2.message.isSome = true := by
  intro n hn
  obtain ⟨hskip, m, hw⟩ := h.waiting hnone n hn
  exact ⟨hskip, by simp [hw.message]⟩

/-- Turning a waiting transaction back leaves its frames and locks. -/
theorem Waiting.turnBack (h : Waiting t n.2 m) :
    Idle (turnBack n).2 { m with type := .REVERT_KEY_LOCK } := by
  obtain ⟨frames, htop⟩ := h.toIdle.frame (by simp [h.type]) (by simp [h.type])
  exact ⟨by simp [BcosScheduler.turnBack, h.message], h.error, h.contextID,
    Or.inr ⟨frames, htop⟩⟩

theorem FrameInv.deadLock (h : FrameInv log c []) (hnone : log.dispatched = [])
    {states' : List Node} {keyLocks : GraphKeyLocks} {victims : List ContextID}
    (hend : runPass deadLockCallback c.visited log.ctx.keyLocks = .next states' keyLocks victims) :
    FrameState states' keyLocks := by
  have hwait := h.waiting hnone
  have hstate : FrameState c.visited log.ctx.keyLocks := by
    refine ⟨h.wf, h.exclusive, fun n hn => ?_, by simpa using h.live⟩
    obtain ⟨hskip, m, hw⟩ := hwait n hn
    exact ⟨⟨m, hw.toIdle⟩, hskip, h.released n (by simpa using hn)⟩
  rcases runPass_deadLock log.ctx.keyLocks (h.waiting_unmarked hnone) with
    ⟨-, heq⟩ | ⟨before, n, after, hsplit, -, -, heq⟩
  · rw [heq] at hend
    cases hend
    exact hstate
  · rw [heq] at hend
    cases hend
    -- turning back changes the type of one message, no frame and no lock
    obtain ⟨hskip, m, hw⟩ := hwait n (by simp [hsplit])
    rw [hsplit] at hstate
    refine ⟨h.wf, h.exclusive, fun k hk => ?_, hstate.live.mono fun k hk s hs _ => ?_⟩
    · simp only [List.mem_append, List.mem_cons] at hk
      rcases hk with hk | rfl | hk
      · exact hstate.idle k (by simp [hk])
      · exact ⟨⟨_, hw.turnBack⟩, hskip,
          released_of_type hw.turnBack.message (by simp [ExecutionMessage.returns])⟩
      · exact hstate.idle k (by simp [hk])
    · simp only [List.mem_append, List.mem_cons] at hk
      rcases hk with hk | rfl | hk
      · exact ⟨k, by simp [hk], rfl, hs⟩
      · exact ⟨BcosScheduler.turnBack k, by simp, rfl, hs⟩
      · exact ⟨k, by simp [hk], rfl, hs⟩

/-! ### Whole rounds -/

/-- A round ends with an error, or without a failed reply in one of the passes. -/
theorem roundEnd_cases (log : SendLog) (c : Cursor) (rs : List (ContextID × Reply)) :
    (∃ e, roundEnd log c rs = .error e) ∨ (∀ p ∈ rs, p.2.failed = false) ∧
    ((c.visited ≠ [] ∧ log.status.total = 0 ∧ roundEnd log c rs
        = runPass deadLockCallback (c.visited.map (applyReplies rs)) log.ctx.keyLocks) ∨
      roundEnd log c rs
        = runPass keyLockCallback (c.visited.map (applyReplies rs)) log.ctx.keyLocks) := by
  have hfailed : ¬ 0 < (log.seen rs true).status.error → ∀ p ∈ rs, p.2.failed = false := by
    intro herr p hp
    have hzero : rs.countP (fun p => p.2.failed) = 0 := by
      simp only [SendLog.seen] at herr
      omega
    simpa using List.countP_eq_zero.mp hzero p hp
  unfold roundEnd endBatch
  split_ifs with herr hidle
  · exact Or.inl ⟨_, rfl⟩
  · exact Or.inr ⟨hfailed herr, Or.inl ⟨by simpa using hidle.1, hidle.2, rfl⟩⟩
  · exact Or.inr ⟨hfailed herr, Or.inr rfl⟩

theorem map_applyReplies_nil (nodes : List Node) : nodes.map (applyReplies []) = nodes :=
  List.map_id nodes

/-- Without messages there are no replies. -/
theorem Answers.nil (h : Answers executors history log rs) (hnone : log.dispatched = []) :
    rs = [] := by
  have hperm := h.perm
  rw [SendLog.sentTo, hnone] at hperm
  simpa using hperm

theorem FrameState.round (h : FrameState states ctx.keyLocks) (hd : DistinctContexts states)
    (hkeeps : executors.KeepsFrame) (hsend : sendAll env states ctx = .ok (log, c))
    (hans : Answers executors history log rs) {states' : List Node} {keyLocks : GraphKeyLocks}
    {victims : List ContextID} (hend : roundEnd log c rs = .next states' keyLocks victims) :
    FrameState states' keyLocks := by
  have hreach := sendReach_of_sendAll hsend
  have hshape := hreach.shape hd.keyed hd.nodup
  have hinv := hreach.frameInv hd h
  have hnodup : (contexts c.visited).Nodup := by simpa [contexts] using hshape.nodup hd.nodup
  rcases roundEnd_cases log c rs with ⟨e, herr⟩ | ⟨hok, ⟨-, htotal, hpass⟩ | hpass⟩
  · rw [herr] at hend
    cases hend
  · -- nothing was sent: there are no replies and the deadlock pass runs
    have hnone := hshape.dispatched_nil htotal
    rw [hans.nil hnone, map_applyReplies_nil] at hpass
    rw [hans.nil hnone, hpass] at hend
    exact hinv.deadLock hnone hend
  · obtain ⟨active, hmarked, hact⟩ := hinv.marked
    have hsettled := hinv.settled hkeeps hnodup hshape.sentNodup hans hok hact
      hmarked.subset.subset
    have hmarked' := hmarked.map (fun n => (applyReplies_frame rs n).1)
      (fun n => (applyReplies_frame rs n).2.skip)
    rw [hpass] at hend
    exact hsettled.pass (hshape.replied hd.nodup rs) hmarked' hend

theorem Reaches.frameState {states₀ : List Node} {ctx₀ : SendContext}
    (hd : DistinctContexts states₀) (h₀ : FrameState states₀ ctx₀.keyLocks)
    (hkeeps : executors.KeepsFrame)
    (h : Reaches env executors states₀ ctx₀ states ctx history) :
    FrameState states ctx.keyLocks := by
  induction h with
  | start => exact h₀
  | next hreach _ hsend hans hend ih => exact ih.round (hreach.distinct hd) hkeeps hsend hans hend

end BcosScheduler
