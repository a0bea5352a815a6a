/-
BcosScheduler/OwnLocks.lean

A transaction and its own locks.

A transaction has two numbers: the `contextID` of its state, which is its index
in the block, and the `contextID` of its messages, which is the index plus
`m_startContextID`.  `startBatch` acquires and asks under the first,
`checkBatch` acquires and releases under the second.  If the block executive
starts at 0 they are the same, and the locks of a transaction are never in its
way; if it does not, as in every `SchedulerImpl::call` after the first, a
re-entrant call is sent with the keys its own caller has locked.
-/
import BcosScheduler.Dag
import BcosScheduler.FramePass

namespace BcosScheduler

/-- The messages of a state carry its number shifted by the start. -/
def Numbered (start : ContextID) (state : ExecutiveState) : Prop :=
  ∀ message, state.message = some message → message.contextID = state.contextID + start

/-- The lock graph is well formed and every key has one owner. -/
structure SoundLocks (keyLocks : GraphKeyLocks) : Prop where
  wf : keyLocks.Wf
  exclusive : keyLocks.table.Exclusive

/-- A lock taken for the transaction `i`, under one of its numbers. -/
def LockedFor (start : ContextID) (keyLocks : GraphKeyLocks) (i : ContextID) (k : KeyLock) : Prop :=
  ∃ c s, keyLocks.table.own k c s ∧ (c = i ∨ c = i + start)

variable {env : BlockEnv} {executors : Executors} {staticCall : Bool} {ctx : SendContext}
  {start : ContextID} {keyLocks : GraphKeyLocks} {log log' : SendLog}
  {state state' : ExecutiveState} {message : ExecutionMessage} {hint : TraverseHint}
  {m m' : Machine} {n : Node} {rest : List Node}

/-! ### The locks stay sound -/

theorem SoundLocks.empty : SoundLocks {} := ⟨GraphKeyLocks.Wf.empty, by
  rw [GraphKeyLocks.table_empty]
  exact LockTable.Exclusive.empty⟩

theorem SoundLocks.acquireKeyLock (h : SoundLocks keyLocks) (contract key : String) (c : ContextID)
    (s : Seq) : SoundLocks (keyLocks.acquireKeyLock contract key c s).1 where
  wf := h.wf.acquireKeyLock contract key c s
  exclusive := by
    rw [h.wf.table_acquireKeyLock]
    exact h.exclusive.acquire _ _ _

theorem SoundLocks.batchAcquireKeyLock (h : SoundLocks keyLocks) {contract : String}
    {keys : List String} {c : ContextID} {s : Seq} {g : GraphKeyLocks}
    (hg : keyLocks.batchAcquireKeyLock contract keys c s = .ok g) : SoundLocks g := by
  obtain ⟨hfree, hspec⟩ := GraphKeyLocks.Wf.batchAcquireKeyLock_spec contract c s keys h.wf
  obtain ⟨hwf, htable⟩ := hspec g hg
  refine ⟨hwf, ?_⟩
  rw [htable]
  apply h.exclusive.grantAll
  rintro ⟨contract', key⟩ ⟨rfl, hkey⟩
  exact hfree.mp ⟨g, hg⟩ key hkey

theorem SoundLocks.releaseKeyLocks (h : SoundLocks keyLocks) (c : ContextID) (s : Seq) :
    SoundLocks (keyLocks.releaseKeyLocks c s) where
  wf := (h.wf.releaseKeyLocks c s).1
  exclusive := by
    rw [(h.wf.releaseKeyLocks c s).2]
    exact h.exclusive.release c s

theorem keyLockCallback_soundLocks {s s' : PassContext} (h : SoundLocks s.keyLocks)
    (hcall : keyLockCallback s state = .ok (hint, s', state')) : SoundLocks s'.keyLocks := by
  rcases hskip : state.skip with _ | _
  · rcases hmsg : state.message with _ | message
    · simp [keyLockCallback, hskip, hmsg] at hcall
    · obtain ⟨-, -, ⟨-, g, hg, rfl⟩ | ⟨-, rfl⟩ | ⟨-, -, rfl⟩⟩ :=
        keyLockCallback_cases hskip hmsg hcall
      · exact h.batchAcquireKeyLock hg
      · exact h.releaseKeyLocks _ _
      · exact h
  · rw [keyLockCallback_skip s state hskip] at hcall
    cases hcall
    exact h

theorem deadLockCallback_keyLocks {s s' : PassContext}
    (hcall : deadLockCallback s state = .ok (hint, s', state')) : s'.keyLocks = s.keyLocks := by
  rcases deadLockCallback_cases hcall with ⟨-, rfl, -⟩ | ⟨-, -, -, rfl, -⟩ | ⟨-, rfl, -⟩ <;> rfl

theorem deadLockCallback_numbered {s s' : PassContext} (hstate : Numbered start state)
    (h : deadLockCallback s state = .ok (hint, s', state')) : Numbered start state' := by
  rcases deadLockCallback_cases h with ⟨-, -, rfl⟩ | ⟨message, hmsg, -, -, rfl⟩ | ⟨-, -, rfl⟩
  · exact hstate
  · intro message' hmsg'
    obtain rfl := Option.some.inj hmsg'
    exact hstate message hmsg
  · exact hstate

theorem keyLockCallback_numbered {s s' : PassContext} (hstate : Numbered start state)
    (h : keyLockCallback s state = .ok (hint, s', state')) : Numbered start state' := by
  intro message hmsg
  rw [keyLockCallback_message h] at hmsg
  rw [(keyLockCallback_contextID h).1]
  exact hstate message hmsg

/-! ### Numbers and locks of DMTExecute -/

/-- Invariant of `DMTExecute`. -/
structure NumberInv (start : ContextID) (m : Machine) : Prop where
  locks : SoundLocks m.log.ctx.keyLocks
  numbered : ∀ n ∈ m.states, Numbered start n.2
  sent : ∀ d ∈ m.log.dispatched, d.message.contextID = d.contextID + start

theorem numberInv_start {states : List Node} (hstates : ∀ n ∈ states, Numbered start n.2)
    (hlocks : SoundLocks ctx.keyLocks) (history : List BatchLog) :
    NumberInv start (Machine.startBatch states ctx history) where
  locks := hlocks
  numbered := hstates
  sent := by simp [Machine.startBatch]

theorem contextID_withTarget (message : ExecutionMessage) (i : ContextID) (seq : Seq) :
    (withTarget env message i seq).contextID = message.contextID := by
  unfold withTarget
  split_ifs <;> rfl

/-- A message is sent under the number it has, and only a retry takes a lock. -/
theorem Prepares.numbers {callStack : List Seq} {currentSeq : Seq} {message' : ExecutionMessage}
    {created : Bool}
    (h : Prepares env ctx state message callStack currentSeq keyLocks message' created)
    (hlocks : SoundLocks ctx.keyLocks) :
    message'.contextID = message.contextID ∧ SoundLocks keyLocks := by
  cases h with
  | push _ => exact ⟨contextID_withTarget message _ _, hlocks⟩
  | pop _ _ => exact ⟨rfl, hlocks⟩
  | revertKeyLock _ => exact ⟨rfl, hlocks⟩
  | retry _ _ => exact ⟨rfl, hlocks.acquireKeyLock _ _ _ _⟩
  | sendBack _ => exact ⟨contextID_withTarget _ _ _, hlocks⟩

theorem Sends.numbered (h : Sends env log state hint log' state') (hstate : Numbered start state) :
    Numbered start state' := by
  cases h with
  | send => exact fun message hmsg => by cases hmsg
  | _ => exact hstate

theorem NumberInv.visit (h : NumberInv start m) (htodo : m.todo = n :: rest) :
    NumberInv start (m.visit env n rest) := by
  have hall : ∀ k ∈ m.cursor.visited ++ n :: rest, Numbered start k.2 := by
    rw [← htodo]
    exact h.numbered
  have hn := hall n (by simp)
  unfold Machine.visit
  split
  next => exact ⟨h.locks, h.numbered, h.sent⟩
  next log' c' rest' hstep =>
    rcases sendStep_cases hstep with ⟨-, rfl, rfl, rfl⟩ | ⟨-, hint, state, hsends, heq⟩
    · exact ⟨h.locks, by simpa [Machine.states, Cursor.keep] using hall, h.sent⟩
    · have hnumbered := advance_states (P := Numbered start) hall (hsends.numbered hn) hint
      rw [← heq] at hnumbered
      cases hsends with
      | error => exact ⟨h.locks, hnumbered, h.sent⟩
      | skip _ _ _ _ => exact ⟨h.locks, hnumbered, h.sent⟩
      | wait _ _ _ _ _ => exact ⟨h.locks.acquireKeyLock _ _ _ _, hnumbered, h.sent⟩
      | erase _ _ _ _ _ => exact ⟨h.locks, hnumbered, h.sent⟩
      | @send message message' callStack currentSeq keyLocks created _ hmsg _ hprep =>
          obtain ⟨hctx, hlocks⟩ := hprep.numbers h.locks
          refine ⟨hlocks, hnumbered, fun d hd => ?_⟩
          rcases List.mem_append.mp hd with hd | hd
          · exact h.sent d hd
          · rw [List.mem_singleton.mp hd]
            exact hctx.trans (hn message hmsg)

theorem NumberInv.receive (h : NumberInv start m) (hkeeps : executors.KeepsFrame) {d : Dispatch}
    {reply : Reply} (hd : d ∈ m.log.dispatched)
    (hreply : executors.reply m.sentBefore d.message reply) :
    NumberInv start (m.receive d.contextID reply) := by
  refine ⟨h.locks, fun k hk message hmsg => ?_, h.sent⟩
  rw [Machine.states_receive] at hk
  obtain ⟨k₀, hk₀, rfl⟩ := List.mem_map.mp hk
  rw [Machine.contextID_storeAt]
  rcases Machine.message_storeAt hmsg with hold | ⟨hctx, rfl⟩
  · exact h.numbered k₀ hk₀ message hold
  · rw [hkeeps.contextID hreply, h.sent d hd, hctx]

theorem NumberInv.blind (m : Machine) (receipts : List (Option Receipt)) (phase : Phase)
    (h : NumberInv start m) : NumberInv start { m with receipts := receipts, phase := phase } :=
  ⟨h.locks, h.numbered, h.sent⟩

theorem NumberInv.checkBatch (h : NumberInv start m) :
    NumberInv start (m.checkBatch staticCall) := by
  apply Machine.checkBatch_rule staticCall NumberInv.blind ⟨h.locks, h.numbered, h.sent⟩ _ h
  intro states' keyLocks victims _ hend
  obtain ⟨-, ⟨-, hpass⟩ | hpass⟩ := endBatch_next hend
  · refine numberInv_start (runPass_states deadLockCallback_numbered h.numbered hpass) ?_ _
    refine runPass_keyLocks (P := SoundLocks) (fun hs hcall => ?_) h.locks hpass
    rw [deadLockCallback_keyLocks hcall]
    exact hs
  · refine numberInv_start (runPass_states keyLockCallback_numbered h.numbered hpass) ?_ _
    exact runPass_keyLocks keyLockCallback_soundLocks h.locks hpass

theorem NumberInv.step (h : NumberInv start m) (hkeeps : executors.KeepsFrame)
    (hstep : Machine.Step env staticCall executors m m') : NumberInv start m' := by
  cases hstep with
  | visit _ htodo => exact h.visit htodo
  | allSended _ _ => exact ⟨h.locks, h.numbered, h.sent⟩
  | check _ _ _ => exact h.checkBatch
  | reply _ hd _ hreply => exact (h.receive hkeeps hd hreply).checkBatch
  | @hash answer _ _ => exact Machine.hashDone_rule env NumberInv.blind h answer

/-! ### Own locks -/

/-- The locks of a transaction are not in its way: what is sent for it next does
not carry a key locked for it, and a retry does not fail on one. -/
structure NotBlockedByOwn (env : BlockEnv) (start : ContextID) (m : Machine) : Prop where
  dispatch : ∀ n rest d, m.todo = n :: rest →
    (m.visit env n rest).log.dispatched = m.log.dispatched ++ [d] →
    ∀ key ∈ d.message.keyLocks,
      ¬ LockedFor start (m.visit env n rest).log.ctx.keyLocks d.contextID (d.message.toAddr, key)
  retry : ∀ n ∈ m.states, ∀ message, n.2.message = some message → message.type = .KEY_LOCK →
    (m.log.ctx.keyLocks.acquireKeyLock message.fromAddr message.keyLockAcquired n.2.contextID
      message.seq).2 = false →
    ¬ LockedFor start m.log.ctx.keyLocks n.2.contextID (message.fromAddr, message.keyLockAcquired)

/-- With one number, what another one owns is not locked for the transaction. -/
theorem SoundLocks.not_lockedFor (h : SoundLocks keyLocks) {k : KeyLock} {i c : ContextID} {s : Seq}
    (hown : keyLocks.table.own k c s) (hne : c ≠ i) : ¬ LockedFor 0 keyLocks i k := by
  rintro ⟨c', s', hown', hc'⟩
  have hi : c' = i := by simpa using hc'
  exact hne ((h.exclusive hown hown').trans hi)

/-- A message is published with the locks that are there after its visit. -/
theorem visit_published {d : Dispatch}
    (h : (m.visit env n rest).log.dispatched = m.log.dispatched ++ [d]) :
    d.message.keyLocks
      = (m.visit env n rest).log.ctx.keyLocks.getKeyLocksNotHoldingByContext d.message.toAddr
        d.contextID := by
  have hgrows : m.log.dispatched ≠ m.log.dispatched ++ [d] := fun heq => by
    have hlen := congrArg List.length heq
    simp at hlen
  unfold Machine.visit at h ⊢
  split at h
  next => exact absurd h hgrows
  next log' c' rest' hstep =>
    rcases sendStep_cases hstep with ⟨-, rfl, -, -⟩ | ⟨-, hint, state, hsends, -⟩
    · exact absurd h hgrows
    · cases hsends with
      | send _ _ _ _ =>
          obtain rfl := List.singleton_inj.mp (List.append_cancel_left h)
          rfl
      | _ => exact absurd h hgrows

theorem NumberInv.notBlockedByOwn (h : NumberInv 0 m) : NotBlockedByOwn env 0 m where
  dispatch := by
    intro n rest d htodo hsent key hkey
    have hinv : NumberInv 0 (m.visit env n rest) := h.visit htodo
    rw [visit_published hsent, hinv.locks.wf.mem_getKeyLocksNotHoldingByContext] at hkey
    obtain ⟨c, s, hown, hne⟩ := hkey
    exact hinv.locks.not_lockedFor hown hne
  retry := by
    intro n _ message _ _ hfail
    have hfree : ¬ m.log.ctx.keyLocks.table.Free (message.fromAddr, message.keyLockAcquired)
        n.2.contextID := by
      rw [← h.locks.wf.acquireKeyLock_iff _ _ _ message.seq, hfail]
      exact Bool.false_ne_true
    simp only [LockTable.Free, not_forall] at hfree
    obtain ⟨c, s, hown, hne⟩ := hfree
    exact h.locks.not_lockedFor hown hne

/-! ### Blocks -/

namespace Execution

/-- The messages that came back from `DAGExecute` carry the numbers they were sent
with. -/
def KeepsNumbers (env : ExecuteEnv) (x : Execution) : Prop :=
  ∀ d, x.dag = some d → ∀ n ∈ d.states, Numbered env.startContextID n.2

/-- Runs of a block whose replies to groups keep the numbers. -/
def KeepingSteps (env : ExecuteEnv) (block : Block) (executors : Executors) :
    Execution → Execution → Prop :=
  Relation.ReflTransGen fun x x' => Step env block executors x x' ∧ x'.KeepsNumbers env

end Execution

section Blocks

variable {env : ExecuteEnv} {block : Block} {x x' : Execution}

theorem numbered_blockStates (env : ExecuteEnv) (block : Block) :
    ∀ n ∈ (blockStates env block).1, Numbered env.startContextID n.2 := by
  intro n hn message hmsg
  obtain ⟨i, hctx, p, hget, hp, -⟩ := (blockStates_fresh env block n hn).frame
  obtain rfl := Option.some.inj (hp.symm.trans hmsg)
  rw [(blockMessages_get hget).1, hctx]

theorem Execution.KeepingSteps.numberInv (hkeeps : executors.KeepsFrame)
    (h : Execution.KeepingSteps env block executors (Execution.start env block) x) :
    ∀ m ∈ x.dmts, NumberInv env.startContextID m := by
  have hstart : ∀ states, (∀ n ∈ states, Numbered env.startContextID n.2) →
      NumberInv env.startContextID (Machine.startBatch states (initialContext block) []) :=
    fun states hstates => numberInv_start hstates SoundLocks.empty _
  induction h with
  | refl => exact Execution.start_dmts hstart (numbered_blockStates env block)
  | tail _ hstep ih =>
      exact Execution.Step.dmts hstart (numbered_blockStates env block) hstep.2
        (fun _ _ _ _ _ _ hm hinv => hinv.step hkeeps hm) ih hstep.1

/-! ### A call that enters its contract again -/

/-- The block of a call. -/
def liquidCall : Block where
  number := 7
  transactions := [{ hash := 1, sender := "s", toAddr := "a"
                     attributes := { liquidScaleCodec := true } }]

/-- Executors that answer with a call of the same contract and lock a key. -/
def reentering (_ : List (List ExecutionMessage)) (message : ExecutionMessage) : Reply :=
  .message { message with type := .MESSAGE, fromAddr := message.toAddr, keyLocks := ["k"] }

theorem reentering_keepsFrame : (Executors.ofFun reentering plainRoot).KeepsFrame where
  contextID := by
    intro before message r h
    have h' : Reply.message r = reentering before message := h
    rw [Reply.message.inj h']
  seq := by
    intro before message r h
    have h' : Reply.message r = reentering before message := h
    rw [Reply.message.inj h']

/-- `DMTExecute` when the second batch starts. -/
def reentered (env : ExecuteEnv) : Machine :=
  (dmtStart env liquidCall).run (env.blockEnv liquidCall) env.staticCall reentering plainRoot
    [.visit, .allSended, .reply 0]

/-- The state of the second batch. -/
def reenteredState (env : ExecuteEnv) : Node :=
  (toLex ("a", 0),
    { contextID := 0, callStack := [0], currentSeq := 1
      message := some { type := .MESSAGE, contextID := 0 + env.startContextID
                        origin := toHex "s", fromAddr := "a", toAddr := "a"
                        gasAvailable := transactionGas, staticCall := env.staticCall
                        keyLocks := ["k"] } })

theorem reentered_todo (env : ExecuteEnv) : (reentered env).todo = [reenteredState env] := rfl

/-- The frame that waits owns the key under the number of its message. -/
theorem reentered_keyLocks (env : ExecuteEnv) : (reentered env).log.ctx.keyLocks
    = (GraphKeyLocks.acquireKeyLock {} "a" "k" (0 + env.startContextID) 0).1 := rfl

theorem reentered_own (env : ExecuteEnv) :
    (reentered env).log.ctx.keyLocks.table.own ("a", "k") (0 + env.startContextID) 0 := by
  have hfree : (LockTable.empty : Locks).Free ("a", "k") (0 + env.startContextID) :=
    fun c s h => by cases h
  rw [reentered_keyLocks, GraphKeyLocks.Wf.empty.table_acquireKeyLock, GraphKeyLocks.table_empty,
    LockTable.acquire_of_free hfree]
  exact Or.inr ⟨rfl, rfl, rfl⟩

/-- Steps of `DMTExecute` in a block without DAG transactions. -/
theorem keepingSteps_dmt (hdag : x.dag = none) {m m' : Machine} (hm : x.dmts = [m])
    (h : Machine.Steps (env.blockEnv block) env.staticCall executors m m') :
    Execution.KeepingSteps env block executors x { x with dmts := [m'] } := by
  induction h with
  | refl =>
      rw [← hm]
      exact Relation.ReflTransGen.refl
  | tail _ hstep ih =>
      refine ih.tail ⟨@Execution.Step.dmt env block executors _ [] [] _ _ rfl hstep, ?_⟩
      intro d hd
      have hnone : some d = none := hd.symm.trans hdag
      cases hnone

theorem reentered_steps (env : ExecuteEnv) : ∃ x,
    Execution.KeepingSteps env liquidCall (.ofFun reentering plainRoot)
      (Execution.start env liquidCall) x ∧ reentered env ∈ x.dmts := by
  let started : Execution := { nextBlock := false, dmts := [dmtStart env liquidCall] }
  have hstart : Execution.KeepingSteps env liquidCall (.ofFun reentering plainRoot)
      (Execution.start env liquidCall) started := by
    unfold Execution.start
    split_ifs
    · exact .refl
    · exact .single ⟨@Execution.Step.nextBlock _ _ _ _ none rfl, nofun⟩
  have hrun : Execution.KeepingSteps env liquidCall (.ofFun reentering plainRoot) started
      { started with dmts := [reentered env] } :=
    keepingSteps_dmt rfl rfl (Machine.run_steps _ _)
  exact ⟨_, hstart.trans hrun, List.mem_singleton.mpr rfl⟩

/-- The next visit sends the call to its contract and leaves the locks. -/
theorem reentered_sends (env : ExecuteEnv) : ∃ d : Dispatch,
    ((reentered env).visit (env.blockEnv liquidCall) (reenteredState env) []).log.dispatched
      = (reentered env).log.dispatched ++ [d] ∧ d.contextID = 0 ∧ d.message.toAddr = "a" ∧
    ((reentered env).visit (env.blockEnv liquidCall) (reenteredState env) []).log.ctx.keyLocks
      = (reentered env).log.ctx.keyLocks := ⟨_, rfl, rfl, rfl, rfl⟩

/-- The second call of the contract is sent with the key of the first. -/
theorem reentered_blocked (env : ExecuteEnv) (hstart : env.startContextID ≠ 0) :
    ¬ NotBlockedByOwn (env.blockEnv liquidCall) env.startContextID (reentered env) := by
  intro h
  obtain ⟨d, hsent, hctx, hto, hkeyLocks⟩ := reentered_sends env
  have hown := reentered_own env
  have hwf : (reentered env).log.ctx.keyLocks.Wf := by
    rw [reentered_keyLocks]
    exact GraphKeyLocks.Wf.empty.acquireKeyLock _ _ _ _
  have hkey : "k" ∈ d.message.keyLocks := by
    rw [visit_published hsent, hto, hctx, hkeyLocks, hwf.mem_getKeyLocksNotHoldingByContext]
    exact ⟨_, _, hown, by simpa using hstart⟩
  apply h.dispatch _ _ d (reentered_todo env) hsent "k" hkey
  rw [hkeyLocks, hto, hctx]
  exact ⟨_, _, hown, Or.inr rfl⟩

/-- **A transaction and its own locks.**  For a block executive as the scheduler
makes them (start 0, or one transaction), with executors that keep context and
sequence number: the messages of transaction `i` carry the number `i` plus the
start, and no lock taken for it is in its way, in every run of every block, if
and only if the executive starts at 0. -/
theorem own_locks_never_block_iff (env : ExecuteEnv) :
    (∀ block executors x m, env.startContextID = 0 ∨ block.size = 1 → executors.KeepsFrame →
      Execution.KeepingSteps env block executors (Execution.start env block) x → m ∈ x.dmts →
      (∀ n ∈ m.states, Numbered env.startContextID n.2) ∧
        NotBlockedByOwn (env.blockEnv block) env.startContextID m) ↔
    env.startContextID = 0 := by
  constructor
  · intro h
    by_contra hstart
    obtain ⟨x, hsteps, hm⟩ := reentered_steps env
    exact reentered_blocked env hstart
      (h liquidCall _ x _ (Or.inr rfl) reentering_keepsFrame hsteps hm).2
  · intro hstart block executors x m _ hkeeps hsteps hm
    have hinv := hsteps.numberInv hkeeps m hm
    refine ⟨hinv.numbered, ?_⟩
    rw [hstart] at hinv ⊢
    exact hinv.notBlockedByOwn

/-- The second `SchedulerImpl::call`. -/
def secondCall : ExecuteEnv := { plainEnv with startContextID := 1, staticCall := true }

/-- It sends a re-entrant call with the key its caller has locked. -/
theorem own_locks_block_second_call :
    ∃ x m, Execution.KeepingSteps secondCall liquidCall (.ofFun reentering plainRoot)
        (Execution.start secondCall liquidCall) x ∧ m ∈ x.dmts ∧
      (Executors.ofFun reentering plainRoot).KeepsFrame ∧
      ¬ NotBlockedByOwn (secondCall.blockEnv liquidCall) secondCall.startContextID m := by
  obtain ⟨x, hsteps, hm⟩ := reentered_steps secondCall
  exact ⟨x, reentered secondCall, hsteps, hm, reentering_keepsFrame,
    reentered_blocked secondCall (by decide)⟩

end Blocks

end BcosScheduler
