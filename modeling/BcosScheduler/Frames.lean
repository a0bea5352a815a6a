/-
BcosScheduler/Frames.lean

Locks belong to live call frames: the sending traversal.

With executors whose replies keep the context and the sequence number of the
message, every entry of the lock graph labelled (context, seq) belongs to a
transaction that is still there and has seq on its call stack.  Between batches
this is `FrameState`, in the sending traversal `FrameInv`.  Locks are taken for
the top frame only, and the frame that returns has lost its locks before the
traversal pops it (`Released`).
-/
import BcosScheduler.AsyncExecute
import BcosScheduler.DeadLock

namespace BcosScheduler

/-- Replies keep context and sequence number. -/
structure Executors.KeepsFrame (executors : Executors) : Prop where
  contextID : ∀ {before message r}, executors.reply before message (.message r) →
    r.contextID = message.contextID
  seq : ∀ {before message r}, executors.reply before message (.message r) → r.seq = message.seq

/-- The locks as a table. -/
abbrev Locks := LockTable KeyLock ContextID Seq

/-- A state with a message of its own context that belongs to its top frame, or
starts the first one. -/
structure Idle (state : ExecutiveState) (m : ExecutionMessage) : Prop where
  message : state.message = some m
  error : state.error = none
  contextID : m.contextID = state.contextID
  top : (state.callStack = [] ∧ (m.type = .MESSAGE ∨ m.type = .TXHASH)) ∨
    ∃ rest, state.callStack = m.seq :: rest

/-- A state whose message `d` is with an executor. -/
structure InFlight (d : Dispatch) (state : ExecutiveState) : Prop where
  message : state.message = none
  error : state.error = none
  sentFor : d.contextID = state.contextID
  contextID : d.message.contextID = state.contextID
  top : ∃ rest, state.callStack = d.message.seq :: rest

/-- A state that waits for a key of another context. -/
structure Waiting (t : Locks) (state : ExecutiveState) (m : ExecutionMessage) : Prop
    extends Idle state m where
  type : m.type = .KEY_LOCK
  requests : ∃ s, t.req (m.fromAddr, m.keyLockAcquired) state.contextID s
  owned : ∃ c s, t.own (m.fromAddr, m.keyLockAcquired) c s ∧ c ≠ state.contextID

/-- Entries of the lock table belong to frames of the nodes. -/
def LiveFrames (nodes : List Node) (t : Locks) : Prop :=
  ∀ i s, t.Holds i s → ∃ n ∈ nodes, n.2.contextID = i ∧ s ∈ n.2.callStack

/-- The frame a state returns from has no entries any more. -/
def Released (t : Locks) (state : ExecutiveState) : Prop :=
  ∀ m, state.message = some m → m.returns → ¬ t.Holds state.contextID m.seq

/-- Between batches. -/
structure FrameState (states : List Node) (keyLocks : GraphKeyLocks) : Prop where
  wf : keyLocks.Wf
  exclusive : keyLocks.table.Exclusive
  idle : ∀ n ∈ states, (∃ m, Idle n.2 m) ∧ n.2.skip = false ∧ Released keyLocks.table n.2
  live : LiveFrames states keyLocks.table

/-- What the pass after the traversal will act on: all states in flight, and
otherwise only states that wait. -/
def ActiveNodes (t : Locks) (nodes active : List Node) : Prop :=
  (∀ n ∈ nodes, n.2.message = none → n ∈ active) ∧
  ∀ n ∈ active, n.2.message = none ∨ ∃ m, Waiting t n.2 m

/-- In the sending traversal. -/
structure FrameInv (log : SendLog) (c : Cursor) (todo : List Node) : Prop where
  wf : log.ctx.keyLocks.Wf
  exclusive : log.ctx.keyLocks.table.Exclusive
  ahead : ∀ n ∈ todo, (∃ m, Idle n.2 m) ∧ n.2.skip = false
  behind : ∀ n ∈ c.visited, (∃ m, Idle n.2 m) ∨ ∃ d ∈ log.dispatched, InFlight d n.2
  sent : ∀ d ∈ log.dispatched, ∃ n ∈ c.visited, InFlight d n.2
  released : ∀ n ∈ c.visited ++ todo, Released log.ctx.keyLocks.table n.2
  live : LiveFrames (c.visited ++ todo) log.ctx.keyLocks.table
  marked : ∃ active, Marked none c.visited active c.bound ∧
    ActiveNodes log.ctx.keyLocks.table c.visited active
  /-- As long as nothing is sent, nobody is skipped. -/
  quiet : log.dispatched = [] → log.ctx.calledContract = [] ∧ c.bound = none
  noError : log.status.error = 0

variable {env : BlockEnv} {executors : Executors} {states nodes nodes' : List Node}
  {ctx : SendContext} {log log' : SendLog} {c c' : Cursor} {n : Node}
  {todo rest rest' : List Node} {t : Locks} {state : ExecutiveState} {m : ExecutionMessage}

theorem FrameState.start (h : FrameState states ctx.keyLocks) :
    FrameInv { ctx := { ctx with calledContract := [] } } {} states where
  wf := h.wf
  exclusive := h.exclusive
  ahead := fun n hn => ⟨(h.idle n hn).1, (h.idle n hn).2.1⟩
  behind := by simp
  sent := by simp
  released := fun n hn => (h.idle n (by simpa using hn)).2.2
  live := by simpa using h.live
  marked := ⟨[], .nil, by simp [ActiveNodes]⟩
  quiet := fun _ => ⟨rfl, rfl⟩
  noError := rfl

/-! ### Other contexts -/

section Others

variable {k : KeyLock} {i : ContextID} {s : Seq}

theorem Released.acquire (h : Released t state) (hne : state.contextID ≠ i) :
    Released (t.acquire k i s) state := by
  intro m hm hret hholds
  rcases hholds.of_acquire with hold | ⟨heq, -⟩
  · exact h m hm hret hold
  · exact hne heq

/-- Only a return has to be released. -/
theorem released_of_type (hmsg : state.message = some m) (htype : ¬ m.returns) :
    Released t state := by
  intro m' hm' hret
  rw [hmsg] at hm'
  cases hm'
  exact absurd hret htype

theorem released_of_none (hmsg : state.message = none) : Released t state := by
  intro m hm
  rw [hmsg] at hm
  cases hm

theorem Waiting.acquire (h : Waiting t state m) (hne : state.contextID ≠ i) :
    Waiting (t.acquire k i s) state m := by
  obtain ⟨r, hr⟩ := h.requests
  obtain ⟨o, s', ho, hother⟩ := h.owned
  by_cases hfree : t.Free k i
  · rw [LockTable.acquire_of_free hfree]
    exact ⟨h.toIdle, h.type, ⟨r, hr, fun heq => hne heq.2⟩, ⟨o, s', Or.inl ho, hother⟩⟩
  · rw [LockTable.acquire_of_not_free hfree]
    exact ⟨h.toIdle, h.type, ⟨r, Or.inl hr⟩, ⟨o, s', ho, hother⟩⟩

/-- A refused acquire leaves the state waiting. -/
theorem Idle.waiting (h : Idle state m) (htype : m.type = .KEY_LOCK)
    (hheld : ¬ t.Free (m.fromAddr, m.keyLockAcquired) state.contextID) (s : Seq) :
    Waiting (t.acquire (m.fromAddr, m.keyLockAcquired) state.contextID s) state m := by
  rw [LockTable.acquire_of_not_free hheld]
  simp only [LockTable.Free, not_forall] at hheld
  obtain ⟨o, s', ho, hne⟩ := hheld
  exact ⟨h, htype, ⟨s, Or.inr ⟨rfl, rfl, rfl⟩⟩, ⟨o, s', ho, hne⟩⟩

theorem LiveFrames.acquire (h : LiveFrames nodes t) (hn : n ∈ nodes) (hctx : n.2.contextID = i)
    (hs : s ∈ n.2.callStack) : LiveFrames nodes (t.acquire k i s) := by
  intro i' s' hholds
  rcases hholds.of_acquire with hold | ⟨rfl, rfl⟩
  · exact h i' s' hold
  · exact ⟨n, hn, hctx, hs⟩

/-- Frames with entries have to stay. -/
theorem LiveFrames.mono (h : LiveFrames nodes t)
    (hkeep : ∀ n ∈ nodes, ∀ s ∈ n.2.callStack, t.Holds n.2.contextID s →
      ∃ n' ∈ nodes', n'.2.contextID = n.2.contextID ∧ s ∈ n'.2.callStack) :
    LiveFrames nodes' t := by
  intro i s hholds
  obtain ⟨n, hn, rfl, hs⟩ := h i s hholds
  exact hkeep n hn s hs hholds

end Others

/-! ### One visit -/

/-- A message that is not a request belongs to a frame. -/
theorem Idle.frame (h : Idle state m) (hmessage : m.type ≠ .MESSAGE) (htxhash : m.type ≠ .TXHASH) :
    ∃ rest, state.callStack = m.seq :: rest := by
  rcases h.top with ⟨-, htype | htype⟩ | htop
  · exact absurd htype hmessage
  · exact absurd htype htxhash
  · exact htop

theorem Idle.returned (h : Idle state m) (hret : m.returns) :
    ∃ rest, state.callStack = m.seq :: rest := by
  rcases hret with hret | hret
  · exact h.frame (by simp [hret]) (by simp [hret])
  · exact h.frame (by simp [hret]) (by simp [hret])

/-- The other nodes belong to other contexts. -/
def OtherContexts (c : Cursor) (n : Node) (rest : List Node) : Prop :=
  ∀ k ∈ c.visited ++ rest, k.2.contextID ≠ n.2.contextID

theorem otherContexts_of_nodup (h : (contexts c.visited ++ contexts (n :: rest)).Nodup) :
    OtherContexts c n rest := by
  intro k hk heq
  obtain ⟨-, hright, hdisj⟩ := List.nodup_append.mp h
  rcases List.mem_append.mp hk with hk | hk
  · exact hdisj _ (List.mem_map.mpr ⟨k, hk, rfl⟩) _ (List.mem_cons_self ..) heq
  · exact (List.nodup_cons.mp hright).1 (List.mem_map.mpr ⟨k, hk, heq⟩)

/-- The log with other locks. -/
def SendLog.withLocks (log : SendLog) (keyLocks : GraphKeyLocks) : SendLog :=
  { log with ctx := { log.ctx with keyLocks := keyLocks } }

/-- A retry before its node is moved. -/
theorem FrameInv.acquire (h : FrameInv log c (n :: rest)) (hother : OtherContexts c n rest)
    (hidle : Idle n.2 m) (htype : m.type = .KEY_LOCK) (contract key : String) :
    FrameInv (log.withLocks (log.ctx.keyLocks.acquireKeyLock contract key n.2.contextID m.seq).1)
      c (n :: rest) := by
  have htab := h.wf.table_acquireKeyLock contract key n.2.contextID m.seq
  obtain ⟨frames, htop⟩ := hidle.frame (by simp [htype]) (by simp [htype])
  -- only `exclusive`, `released`, `live` and `marked` speak of the locks
  refine ⟨h.wf.acquireKeyLock .., ?_, h.ahead, h.behind, h.sent, ?_, ?_, ?_, h.quiet, h.noError⟩
  · simp only [SendLog.withLocks, htab]
    exact h.exclusive.acquire _ _ _
  · intro k hk
    simp only [SendLog.withLocks, htab]
    rcases List.mem_append.mp hk with hv | hv
    · exact (h.released k hk).acquire (hother k (List.mem_append_left _ hv))
    · -- the node itself carries a retry, which is no return
      rcases List.mem_cons.mp hv with rfl | hv
      · exact released_of_type hidle.message (by simp [ExecutionMessage.returns, htype])
      · exact (h.released k hk).acquire (hother k (List.mem_append_right _ hv))
  · simp only [SendLog.withLocks, htab]
    exact h.live.acquire (n := n) (by simp) rfl (by simp [htop])
  · obtain ⟨active, hm, hin, hact⟩ := h.marked
    refine ⟨active, hm, hin, fun k hk => ?_⟩
    simp only [SendLog.withLocks, htab]
    rcases hact k hk with hnone | ⟨m', hw⟩
    · exact Or.inl hnone
    · exact Or.inr ⟨m', hw.acquire (hother k (List.mem_append_left _ (hm.subset.subset hk)))⟩

/-- A node is left behind as it is, or with the mark `skip`. -/
theorem FrameInv.leave (h : FrameInv log c (n :: rest)) (state : ExecutiveState)
    (hframe : state = { n.2 with skip := state.skip }) {b : Option StateKey}
    (hquiet : log.dispatched = [] → b = none) {active : List Node}
    (hmarked : Marked c.bound [(n.1, state)] active b)
    (hact : ∀ k ∈ active, ∃ m, Waiting log.ctx.keyLocks.table k.2 m) :
    FrameInv log { c.keep (n.1, state) with bound := b } rest := by
  obtain ⟨⟨m, hidle⟩, -⟩ := h.ahead n (by simp)
  -- the mark is not part of what `Idle` looks at
  have hidle' : Idle state m := by
    rw [hframe]
    exact ⟨hidle.message, hidle.error, hidle.contextID, hidle.top⟩
  have hctx : state.contextID = n.2.contextID := by rw [hframe]
  have hstack : state.callStack = n.2.callStack := by rw [hframe]
  refine ⟨h.wf, h.exclusive, fun k hk => h.ahead k (by simp [hk]), ?_, ?_, ?_, ?_, ?_,
    fun hd => ⟨(h.quiet hd).1, hquiet hd⟩, h.noError⟩
  · intro k hk
    rcases List.mem_append.mp hk with hk | hk
    · exact h.behind k hk
    · rw [List.mem_singleton.mp hk]
      exact Or.inl ⟨m, hidle'⟩
  · intro d hd
    obtain ⟨k, hk, hf⟩ := h.sent d hd
    exact ⟨k, List.mem_append_left _ hk, hf⟩
  · intro k hk
    simp only [Cursor.keep, List.append_assoc, List.mem_append, List.mem_cons,
      List.not_mem_nil, or_false] at hk
    rcases hk with hk | rfl | hk
    · exact h.released k (by simp [hk])
    · intro m' hm'
      have := h.released n (by simp) m'
      rw [hctx]
      rw [hidle'.message] at hm'
      exact this (hidle.message.trans hm')
    · exact h.released k (by simp [hk])
  · apply h.live.mono
    intro k hk s hs _
    rcases List.mem_append.mp hk with hk | hk
    · exact ⟨k, by simp [Cursor.keep, hk], rfl, hs⟩
    · rcases List.mem_cons.mp hk with rfl | hk
      · exact ⟨(k.1, state), by simp [Cursor.keep], hctx, by rw [hstack]; exact hs⟩
      · exact ⟨k, by simp [Cursor.keep, hk], rfl, hs⟩
  · obtain ⟨active', hm, hin, hact'⟩ := h.marked
    refine ⟨active' ++ active, hm.append hmarked, fun k hk hnone => ?_, fun k hk => ?_⟩
    · rcases List.mem_append.mp hk with hk | hk
      · exact List.mem_append_left _ (hin k hk hnone)
      · rw [List.mem_singleton.mp hk, hidle'.message] at hnone
        cases hnone
    · rcases List.mem_append.mp hk with hk | hk
      · exact hact' k hk
      · exact Or.inr (hact k hk)

/-- A node is sent to an executor. -/
theorem FrameInv.send (h : FrameInv log c (n :: rest)) (hjump : c.jumps n = false)
    {m' : ExecutionMessage} {frames : List Seq} {currentSeq : Seq} (created : Bool)
    (hctx : m'.contextID = n.2.contextID)
    (hkeep : ∀ s ∈ n.2.callStack, log.ctx.keyLocks.table.Holds n.2.contextID s →
      s ∈ m'.seq :: frames) :
    FrameInv (log.sent log.ctx.keyLocks n.2.contextID m' created)
      (c.keep (n.1, { n.2 with callStack := m'.seq :: frames, currentSeq := currentSeq
                               message := none })) rest := by
  obtain ⟨⟨m, hidle⟩, hskip⟩ := h.ahead n (by simp)
  have hflight : InFlight ⟨n.2.contextID, published log.ctx.keyLocks n.2.contextID m', created⟩
      { n.2 with callStack := m'.seq :: frames, currentSeq := currentSeq, message := none } :=
    ⟨rfl, hidle.error, rfl, hctx, frames, rfl⟩
  refine ⟨h.wf, h.exclusive, fun k hk => h.ahead k (by simp [hk]), ?_, ?_, ?_, ?_, ?_, ?_,
    h.noError⟩
  · intro k hk
    rcases List.mem_append.mp hk with hk | hk
    · rcases h.behind k hk with hidle | ⟨d, hd, hf⟩
      · exact Or.inl hidle
      · exact Or.inr ⟨d, List.mem_append_left _ hd, hf⟩
    · rw [List.mem_singleton.mp hk]
      exact Or.inr ⟨_, List.mem_append_right _ (List.mem_singleton.mpr rfl), hflight⟩
  · intro d hd
    rcases List.mem_append.mp hd with hd | hd
    · obtain ⟨k, hk, hf⟩ := h.sent d hd
      exact ⟨k, List.mem_append_left _ hk, hf⟩
    · rw [List.mem_singleton.mp hd]
      exact ⟨_, List.mem_append_right _ (List.mem_singleton.mpr rfl), hflight⟩
  · intro k hk
    simp only [Cursor.keep, List.append_assoc, List.mem_append, List.mem_cons,
      List.not_mem_nil, or_false] at hk
    rcases hk with hk | rfl | hk
    · exact h.released k (by simp [hk])
    · exact released_of_none rfl
    · exact h.released k (by simp [hk])
  · -- of the frames of the node only those with entries have to be kept
    apply h.live.mono
    intro k hk s hs hholds
    rcases List.mem_append.mp hk with hk | hk
    · exact ⟨k, by simp [Cursor.keep, hk], rfl, hs⟩
    · rcases List.mem_cons.mp hk with rfl | hk
      · exact ⟨_, List.mem_append_left _ (List.mem_append_right _ (List.mem_singleton.mpr rfl)),
          rfl, hkeep s hs hholds⟩
      · exact ⟨k, by simp [Cursor.keep, hk], rfl, hs⟩
  · obtain ⟨active, hm, hin, hact⟩ := h.marked
    refine ⟨active ++ [_], hm.append (.act hjump hskip .nil), fun k hk hnone => ?_,
      fun k hk => ?_⟩
    · rcases List.mem_append.mp hk with hk | hk
      · exact List.mem_append_left _ (hin k hk hnone)
      · exact List.mem_append_right _ hk
    · rcases List.mem_append.mp hk with hk | hk
      · exact hact k hk
      · rw [List.mem_singleton.mp hk]
        exact Or.inl rfl
  · simp [SendLog.sent]

/-- A finished transaction goes: the frame it returns from was its last one and
has no entries. -/
theorem FrameInv.erase (h : FrameInv log c (n :: rest)) (hidle : Idle n.2 m) (hret : m.returns)
    {last : Seq} (hstack : n.2.callStack = [last]) :
    FrameInv (log.erase env n.2 m) c rest := by
  obtain ⟨frames, htop⟩ := hidle.returned hret
  refine ⟨h.wf, h.exclusive, fun k hk => h.ahead k (by simp [hk]), h.behind, h.sent,
    fun k hk => h.released k (by simp only [List.mem_append, List.mem_cons] at hk ⊢; tauto),
    ?_, h.marked, h.quiet, h.noError⟩
  apply h.live.mono
  intro k hk s hs hholds
  rcases List.mem_append.mp hk with hk | hk
  · exact ⟨k, List.mem_append_left _ hk, rfl, hs⟩
  · rcases List.mem_cons.mp hk with rfl | hk
    · -- the message returns from the only frame, whose entries are released
      rw [hstack] at htop hs
      obtain rfl : last = m.seq := by simpa using congrArg List.head? htop
      rw [List.mem_singleton.mp hs] at hholds
      exact absurd hholds (h.released k (by simp) m hidle.message hret)
    · exact ⟨k, List.mem_append_right _ hk, rfl, hs⟩

/-- What `Prepares` does to the frames of an idle state. -/
theorem Idle.prepares {ctx : SendContext} {callStack : List Seq} {currentSeq : Seq}
    {keyLocks : GraphKeyLocks} {m' : ExecutionMessage} {created : Bool} (h : Idle state m)
    (hprep : Prepares env ctx state m callStack currentSeq keyLocks m' created) :
    m'.contextID = state.contextID ∧ (∃ frames, callStack = m'.seq :: frames) ∧
      ∀ s ∈ state.callStack, s ∉ callStack → m.returns ∧ s = m.seq := by
  cases hprep with
  | push htype =>
      refine ⟨?_, ⟨_, rfl⟩, fun s hs hnot => absurd (List.mem_cons_of_mem _ hs) hnot⟩
      rw [← h.contextID]
      simp only [withTarget]
      split_ifs <;> rfl
  | @pop returned top frames htype hstack =>
      -- the popped frame is the one the message returns from
      obtain ⟨frames', htop⟩ := h.returned htype
      refine ⟨h.contextID, ⟨_, rfl⟩, fun s hs hnot => ⟨htype, ?_⟩⟩
      rw [hstack] at htop hs
      obtain rfl : returned = m.seq := by simpa using congrArg List.head? htop
      rcases List.mem_cons.mp hs with rfl | hs
      · rfl
      · exact absurd hs hnot
  | revertKeyLock htype =>
      exact ⟨h.contextID, h.frame (by simp [htype]) (by simp [htype]),
        fun s hs hnot => absurd hs hnot⟩
  | retry htype =>
      exact ⟨h.contextID, h.frame (by simp [htype]) (by simp [htype]),
        fun s hs hnot => absurd hs hnot⟩
  | sendBack htype =>
      obtain ⟨frames, htop⟩ := h.frame (by simp [htype]) (by simp [htype])
      refine ⟨?_, ⟨frames, ?_⟩, fun s hs hnot => absurd hs hnot⟩
      · rw [← h.contextID]
        simp only [withTarget]
        split_ifs <;> rfl
      · rw [htop]
        simp only [withTarget]
        split_ifs <;> rfl

/-- The locks a message is sent with: those there were, or with one more taken. -/
theorem FrameInv.prepares {callStack : List Seq} {currentSeq : Seq} {keyLocks : GraphKeyLocks}
    {m' : ExecutionMessage} {created : Bool} (h : FrameInv log c (n :: rest))
    (hother : OtherContexts c n rest) (hidle : Idle n.2 m)
    (hprep : Prepares env log.ctx n.2 m callStack currentSeq keyLocks m' created) :
    FrameInv (log.withLocks keyLocks) c (n :: rest) := by
  cases hprep with
  | retry htype _ => exact h.acquire hother hidle htype _ _
  | _ => exact h

theorem FrameInv.step (h : FrameInv log c (n :: rest)) (hother : OtherContexts c n rest)
    (hstep : traverseStep (sendCallback env) n rest log c = .ok (log', c', rest')) :
    FrameInv log' c' rest' := by
  obtain ⟨⟨m, hidle⟩, hskip⟩ := h.ahead n (by simp)
  have hsame : ∀ {m'}, n.2.message = some m' → m' = m := by
    intro m' hm'
    rw [hidle.message] at hm'
    exact (Option.some.inj hm').symm
  rcases sendStep_cases hstep with ⟨hjump, rfl, rfl, rfl⟩ | ⟨hjump, hint, state, hsends, heq⟩
  · exact h.leave n.2 rfl (fun hd => (h.quiet hd).2) (.jump hjump hskip .nil) (by simp)
  · cases hsends with
    | error herr => simp [hidle.error] at herr
    | skip _ hmsg _ hcalled =>
        cases heq
        refine h.leave _ (b := skipBound n) rfl (fun hd => ?_) (.skip hjump rfl .nil) (by simp)
        rw [(h.quiet hd).1] at hcalled
        cases hcalled
    | @wait m' _ hmsg hnot htype hacq =>
        cases heq
        obtain rfl := hsame hmsg
        -- the request failed, so another context owns the key
        have hheld : ¬ log.ctx.keyLocks.table.Free (m'.fromAddr, m'.keyLockAcquired)
            n.2.contextID := by
          rw [← h.wf.acquireKeyLock_iff m'.fromAddr m'.keyLockAcquired n.2.contextID m'.seq, hacq]
          simp
        refine (h.acquire hother hidle htype _ _).leave n.2 (b := c.bound) rfl
          (fun hd => (h.quiet hd).2) (.act hjump hskip .nil) fun k hk => ?_
        rw [List.mem_singleton.mp hk]
        simp only [SendLog.withLocks, h.wf.table_acquireKeyLock]
        exact ⟨m', hidle.waiting htype hheld _⟩
    | @erase m' last _ hmsg hnot htype hstack =>
        cases heq
        obtain rfl := hsame hmsg
        exact h.erase hidle htype hstack
    | @send m' sent callStack currentSeq keyLocks created _ hmsg hnot hprep =>
        cases heq
        obtain rfl := hsame hmsg
        obtain ⟨hctx, ⟨frames, rfl⟩, hgone⟩ := hidle.prepares hprep
        -- first the locks change, then the node moves; a frame that goes has no entries
        have hlocked := h.prepares hother hidle hprep
        refine FrameInv.send hlocked hjump created hctx fun s hs hholds => ?_
        by_contra hnot
        obtain ⟨hret, rfl⟩ := hgone s hs hnot
        exact hlocked.released n (by simp) m' hidle.message hret hholds

theorem SendReach.frameInv (hd : DistinctContexts states) (hstate : FrameState states ctx.keyLocks)
    (h : SendReach env states ctx log c todo) : FrameInv log c todo := by
  induction h with
  | start => exact hstate.start
  | step hreach hstep ih =>
      have hnodup := (hreach.shape hd.keyed hd.nodup).nodup hd.nodup
      exact ih.step (otherContexts_of_nodup hnodup) hstep

end BcosScheduler
