/-
BcosScheduler/KeyLockSafety.lean

`batchAcquireKeyLock` never throws.

The keys other contexts own on a contract are published with the message that
goes there, and the reply asks only for other keys.  Until the batch is complete
nobody else can lock a key of that contract: a retry that takes one is skipped
once the contract was called (`GuardInv.published`), a waiting state asks again
only for keys it owns (`Guarded.owns`), and no two messages of a batch go to the
same contract (`GuardInv.apart`).  So in the pass every key asked for is free
(`Grantable`).
-/
import BcosScheduler.Progress

namespace BcosScheduler

/-- What the lock protocol expects of executors besides `KeepsFrame`. -/
structure Executors.KeepsContract (executors : Executors) : Prop where
  /-- A suspended frame names the contract it executes. -/
  fromAddr : ∀ {before message r}, executors.reply before message (.message r) → r.suspends →
    r.fromAddr = message.toAddr
  /-- A retry goes to the contract again. -/
  toAddr : ∀ {before message r}, executors.reply before message (.message r) →
    r.type = .KEY_LOCK → r.toAddr = message.toAddr
  /-- Keys of other contexts are not asked for. -/
  keyLocks : ∀ {before message r}, executors.reply before message (.message r) → r.suspends →
    ∀ key ∈ r.keyLocks, key ∉ message.keyLocks
  /-- Only creations and their send-backs have no target. -/
  target : ∀ {before message r}, executors.reply before message (.message r) → r.toAddr = "" →
    r.type = .MESSAGE ∨ r.type = .SEND_BACK

/-- An address assigned in a batch differs from every other target of the batch. -/
def FreshAddresses (dispatched : List Dispatch) : Prop :=
  ∀ d ∈ dispatched, d.created = true → ∀ d' ∈ dispatched, d'.contextID ≠ d.contextID →
    d'.message.toAddr ≠ d.message.toAddr

/-- A message without target may get one. -/
def ExecutionMessage.creates (m : ExecutionMessage) : Prop :=
  m.type = .MESSAGE ∨ m.type = .TXHASH ∨ m.type = .SEND_BACK

/-- A message of context `i` that waits in the map. -/
structure Guarded (t : Locks) (i : ContextID) (m : ExecutionMessage) : Prop where
  self : m.type = .KEY_LOCK → m.fromAddr = m.toAddr
  owns : m.type = .KEY_LOCK → ∀ key ∈ m.keyLocks, t.own (m.fromAddr, key) i m.seq
  target : m.toAddr = "" → m.creates

/-- All messages in the map are guarded. -/
def GuardedNodes (t : Locks) (nodes : List Node) : Prop :=
  ∀ n ∈ nodes, ∀ m, n.2.message = some m → Guarded t n.2.contextID m

/-- In the sending traversal. -/
structure GuardInv (log : SendLog) (c : Cursor) (todo : List Node) : Prop where
  guarded : GuardedNodes log.ctx.keyLocks.table (c.visited ++ todo)
  called : ∀ d ∈ log.dispatched, d.message.toAddr ∈ log.ctx.calledContract
  apart : ∀ d ∈ log.dispatched, ∀ d' ∈ log.dispatched, d.message.toAddr = d'.message.toAddr →
    d.contextID = d'.contextID
  published : ∀ d ∈ log.dispatched, ∀ key i s,
    log.ctx.keyLocks.table.own (d.message.toAddr, key) i s → i ≠ d.contextID →
    key ∈ d.message.keyLocks

variable {env : BlockEnv} {executors : Executors} {states nodes active : List Node}
  {ctx : SendContext} {log log' : SendLog} {c c' : Cursor} {n : Node} {history : List BatchLog}
  {todo rest rest' : List Node} {rs : List (ContextID × Reply)} {t t' : Locks}
  {i : ContextID} {m : ExecutionMessage} {keyLocks : GraphKeyLocks}

theorem FreshAddresses.mono {ds ds' : List Dispatch} (h : FreshAddresses ds) (hsub : ds' ⊆ ds) :
    FreshAddresses ds' :=
  fun d hd hc d' hd' hne => h d (hsub hd) hc d' (hsub hd') hne

theorem Guarded.mono (h : Guarded t i m) (hown : ∀ k s, t.own k i s → t'.own k i s) :
    Guarded t' i m :=
  ⟨h.self, fun htype key hkey => hown _ _ (h.owns htype key hkey), h.target⟩

theorem guardInv_start (h : GuardedNodes ctx.keyLocks.table states) :
    GuardInv { ctx := { ctx with calledContract := [] } } {} states where
  guarded := by simpa using h
  called := by simp
  apart := by simp
  published := by simp

/-! ### One visit -/

/-- The nodes behind and ahead after a visit that kept or dropped the message. -/
theorem GuardedNodes.keep (h : GuardedNodes t (c.visited ++ n :: rest)) {state : ExecutiveState}
    (hctx : state.contextID = n.2.contextID)
    (hmsg : state.message = n.2.message ∨ state.message = none) :
    GuardedNodes t ((c.keep (n.1, state)).visited ++ rest) := by
  intro k hk m hm
  simp only [Cursor.keep, List.append_assoc, List.mem_append, List.mem_cons, List.not_mem_nil,
    or_false] at hk
  rcases hk with hk | rfl | hk
  · exact h k (by simp [hk]) m hm
  · rcases hmsg with hmsg | hmsg
    · rw [hctx]
      exact h n (by simp) m (hmsg.symm.trans hm)
    · exact absurd (hmsg.symm.trans hm) (by simp)
  · exact h k (by simp [hk]) m hm

/-- A retry takes a key of a contract that was not called, so it is not the
contract of any message sent before. -/
theorem GuardInv.acquire (h : GuardInv log c todo) (hwf : log.ctx.keyLocks.Wf)
    (hm : Guarded log.ctx.keyLocks.table i m) (htype : m.type = .KEY_LOCK)
    (hnot : NotCalled log.ctx m) (key : String) (s : Seq) :
    GuardInv (log.withLocks (log.ctx.keyLocks.acquireKeyLock m.fromAddr key i s).1) c todo := by
  have htab := hwf.table_acquireKeyLock m.fromAddr key i s
  -- nobody loses a key by an acquire
  have hown : ∀ k j r, log.ctx.keyLocks.table.own k j r →
      (log.ctx.keyLocks.acquireKeyLock m.fromAddr key i s).1.table.own k j r := by
    intro k j r hk
    rw [htab]
    by_cases hfree : log.ctx.keyLocks.table.Free (m.fromAddr, key) i
    · rw [LockTable.acquire_of_free hfree]
      exact Or.inl hk
    · rw [LockTable.acquire_of_not_free hfree]
      exact hk
  -- a retry has a target, and it would have been skipped had that been called
  have hnew : m.toAddr ∉ log.ctx.calledContract := by
    intro hcalled
    refine hnot ⟨fun hempty => ?_, hcalled⟩
    rcases hm.target hempty with ht | ht | ht <;> simp [htype] at ht
  refine ⟨fun k hk m' hm' => (h.guarded k hk m' hm').mono fun _ _ => hown _ _ _, h.called, h.apart,
    fun d hd key' j r hj hne => ?_⟩
  simp only [SendLog.withLocks, htab] at hj
  by_cases hfree : log.ctx.keyLocks.table.Free (m.fromAddr, key) i
  · rw [LockTable.acquire_of_free hfree] at hj
    rcases hj with hj | ⟨heq, -, -⟩
    · exact h.published d hd key' j r hj hne
    · have hcontract : d.message.toAddr = m.fromAddr := congrArg Prod.fst heq
      exact absurd (hm.self htype ▸ hcontract ▸ h.called d hd) hnew
  · rw [LockTable.acquire_of_not_free hfree] at hj
    exact h.published d hd key' j r hj hne

/-- The target of a message made ready to be sent. -/
theorem Guarded.prepares {state : ExecutiveState} {callStack : List Seq} {currentSeq : Seq}
    {m' : ExecutionMessage} {created : Bool} (h : Guarded t i m)
    (hprep : Prepares env ctx state m callStack currentSeq keyLocks m' created) :
    (m.toAddr ≠ "" ∧ m'.toAddr = m.toAddr) ∨ created = true := by
  by_cases hempty : m.toAddr = ""
  · apply Or.inr
    have hcreates := h.target hempty
    cases hprep with
    | push => simp [hempty]
    | pop htype => rcases hcreates with hc | hc | hc <;> simp [hc] at htype
    | revertKeyLock htype => rcases hcreates with hc | hc | hc <;> simp [hc] at htype
    | retry htype => rcases hcreates with hc | hc | hc <;> simp [hc] at htype
    | sendBack => simp [hempty]
  · refine Or.inl ⟨hempty, ?_⟩
    cases hprep with
    | push => simp [withTarget, hempty]
    | pop => rfl
    | revertKeyLock => rfl
    | retry => rfl
    | sendBack => simp [withTarget, hempty]

/-- A message is sent; its contract was not called or its address is fresh. -/
theorem GuardInv.send (h : GuardInv log c (n :: rest)) (hwf : log.ctx.keyLocks.Wf)
    {m' : ExecutionMessage} {created : Bool} {state : ExecutiveState}
    (hctx : state.contextID = n.2.contextID) (hmsg : state.message = none)
    (hnew : m'.toAddr ∉ log.ctx.calledContract ∨ created = true)
    (hfresh : FreshAddresses (log.sent log.ctx.keyLocks n.2.contextID m' created).dispatched) :
    GuardInv (log.sent log.ctx.keyLocks n.2.contextID m' created) (c.keep (n.1, state)) rest := by
  -- no earlier message of another context went to this target
  have happart : ∀ d ∈ log.dispatched, d.message.toAddr = m'.toAddr →
      d.contextID = n.2.contextID := by
    intro d hd heq
    rcases hnew with hnot | hcreated
    · exact absurd (heq ▸ h.called d hd) hnot
    · by_contra hne
      exact hfresh _ (List.mem_append_right _ (List.mem_singleton.mpr rfl)) hcreated d
        (List.mem_append_left _ hd) hne heq
  refine ⟨h.guarded.keep hctx (Or.inr hmsg), fun d hd => ?_, fun d hd d' hd' heq => ?_,
    fun d hd key j s hown hne => ?_⟩
  · rcases List.mem_append.mp hd with hd | hd
    · exact List.mem_cons_of_mem _ (h.called d hd)
    · rw [List.mem_singleton.mp hd]
      exact List.mem_cons_self ..
  · rcases List.mem_append.mp hd with hd | hd <;> rcases List.mem_append.mp hd' with hd' | hd'
    · exact h.apart d hd d' hd' heq
    · rw [List.mem_singleton.mp hd'] at heq ⊢
      exact happart d hd heq
    · rw [List.mem_singleton.mp hd] at heq ⊢
      exact (happart d' hd' heq.symm).symm
    · rw [List.mem_singleton.mp hd, List.mem_singleton.mp hd']
  · rcases List.mem_append.mp hd with hd | hd
    · exact h.published d hd key j s hown hne
    · -- the new message carries just these keys
      rw [List.mem_singleton.mp hd] at hown hne ⊢
      exact hwf.mem_getKeyLocksNotHoldingByContext.mpr ⟨j, s, hown, hne⟩

theorem GuardInv.step (h : GuardInv log c (n :: rest)) (hwf : log.ctx.keyLocks.Wf)
    (hstep : traverseStep (sendCallback env) n rest log c = .ok (log', c', rest'))
    (hnoError : n.2.error = none) (hfresh : FreshAddresses log'.dispatched) :
    GuardInv log' c' rest' := by
  rcases sendStep_cases hstep with ⟨hjump, rfl, rfl, rfl⟩ | ⟨hjump, hint, state, hsends, heq⟩
  · exact ⟨h.guarded.keep rfl (Or.inl rfl), h.called, h.apart, h.published⟩
  · cases hsends with
    | error herr => simp [hnoError] at herr
    | skip =>
        cases heq
        exact ⟨h.guarded.keep rfl (Or.inl rfl), h.called, h.apart, h.published⟩
    | @wait m _ hmsg hnot htype =>
        cases heq
        have hacq := h.acquire hwf (h.guarded n (by simp) m hmsg) htype hnot m.keyLockAcquired m.seq
        exact ⟨hacq.guarded.keep rfl (Or.inl rfl), hacq.called, hacq.apart, hacq.published⟩
    | erase =>
        cases heq
        refine ⟨fun k hk => h.guarded k ?_, h.called, h.apart, h.published⟩
        simp only [List.mem_append, List.mem_cons] at hk ⊢
        tauto
    | @send m m' callStack currentSeq keyLocks created _ hmsg hnot hprep =>
        cases heq
        have hm := h.guarded n (by simp) m hmsg
        have hnew : m'.toAddr ∉ log.ctx.calledContract ∨ created = true := by
          rcases hm.prepares hprep with ⟨hne, heq⟩ | hcreated
          · exact Or.inl fun hcalled => hnot ⟨hne, heq ▸ hcalled⟩
          · exact Or.inr hcreated
        cases hprep with
        | retry htype =>
            exact GuardInv.send (h.acquire hwf hm htype hnot m.keyLockAcquired m.seq)
              (hwf.acquireKeyLock ..) rfl rfl hnew hfresh
        | _ => exact h.send hwf rfl rfl hnew hfresh

/-- Messages of a batch stay sent. -/
theorem sendStep_dispatched
    (h : traverseStep (sendCallback env) n rest log c = .ok (log', c', rest')) :
    log.dispatched ⊆ log'.dispatched := by
  rcases sendStep_cases h with ⟨-, rfl, -, -⟩ | ⟨-, hint, state, hsends, -⟩
  · exact List.Subset.refl _
  · cases hsends
    case send => exact List.subset_append_left _ _
    all_goals exact List.Subset.refl _

theorem SendReach.guardInv (hd : DistinctContexts states) (hstate : FrameState states ctx.keyLocks)
    (hguard : GuardedNodes ctx.keyLocks.table states) (h : SendReach env states ctx log c todo)
    (hfresh : FreshAddresses log.dispatched) : GuardInv log c todo := by
  induction h with
  | start => exact guardInv_start hguard
  | @step log log' c c' n rest rest' hreach hstep ih =>
      have hframe := hreach.frameInv hd hstate
      obtain ⟨⟨m, hidle⟩, -⟩ := hframe.ahead n (by simp)
      exact (ih (hfresh.mono (sendStep_dispatched hstep))).step hframe.wf hstep hidle.error hfresh

/-! ### The pass -/

/-- The node asks for the key. -/
def Asks (n : Node) (k : KeyLock) : Prop :=
  ∃ m, n.2.message = some m ∧ m.suspends ∧ k ∈ m.asks

/-- In the pass: the keys that are still asked for are free, and nobody else asks
for them. -/
structure Grantable (nodes active : List Node) (keyLocks : GraphKeyLocks) : Prop
    extends Settled nodes active keyLocks where
  free : ∀ n ∈ active, ∀ k, Asks n k → keyLocks.table.Free k n.2.contextID
  apart : ∀ n ∈ active, ∀ n' ∈ active, ∀ k, Asks n k → Asks n' k →
    n.2.contextID = n'.2.contextID
  addressed : ∀ n ∈ active, ∀ m, n.2.message = some m →
    (m.type = .KEY_LOCK → m.fromAddr = m.toAddr) ∧ (m.toAddr = "" → m.creates)
  guarded : ∀ n ∈ nodes, n ∉ active → ∀ m, n.2.message = some m →
    Guarded keyLocks.table n.2.contextID m

/-- `batchAcquireKeyLock` does not throw for the next node. -/
theorem Grantable.callback_ok {s : PassContext} (h : Grantable nodes (n :: active) s.keyLocks) :
    ∃ r, keyLockCallback s n.2 = .ok r := by
  obtain ⟨-, m, frames, hidle, -⟩ := h.framed n (by simp)
  have hbatch : m.suspends → ∃ g, s.keyLocks.batchAcquireKeyLock m.fromAddr m.keyLocks m.contextID
      m.seq = .ok g := by
    intro hsus
    refine (GraphKeyLocks.Wf.batchAcquireKeyLock_spec m.fromAddr m.contextID m.seq m.keyLocks
      h.wf).1.mpr fun key hkey => ?_
    rw [hidle.contextID]
    exact h.free n (by simp) _ ⟨m, hidle.message, hsus, rfl, hkey⟩
  rcases hcall : keyLockCallback s n.2 with f | r
  · exfalso
    rcases keyLockCallback_error hcall with ⟨-, hnone⟩ | ⟨m', e, hmsg, hsus, he, -⟩
    · rw [hidle.message] at hnone
      cases hnone
    · obtain rfl := Option.some.inj (hidle.message.symm.trans hmsg)
      obtain ⟨g, hg⟩ := hbatch hsus
      rw [hg] at he
      cases he
  · exact ⟨r, rfl⟩

/-- One turn of the pass. -/
theorem Grantable.step (hnodup : (contexts nodes).Nodup) {s s' : PassContext}
    {hint : TraverseHint} {state' : ExecutiveState} (h : Grantable nodes (n :: active) s.keyLocks)
    (hskip : n.2.skip = false) (hcall : keyLockCallback s n.2 = .ok (hint, s', state')) :
    Grantable nodes active s'.keyLocks := by
  obtain ⟨hn, m, frames, hidle, htop⟩ := h.framed n (by simp)
  obtain ⟨haddr, hcreates⟩ := h.addressed n (by simp) m hidle.message
  have hself : ∀ {m'}, n.2.message = some m' → m' = m := by
    intro m' hm'
    rw [hidle.message] at hm'
    exact (Option.some.inj hm').symm
  obtain ⟨-, ⟨hsus, -, htab⟩ | ⟨hret, htab⟩ | ⟨hsus, hret, htab⟩⟩ :=
    keyLockCallback_table h.wf hskip hidle hcall
  all_goals
    refine ⟨h.toSettled.step hnodup hskip hcall, fun k hk key hasks => ?_,
      fun k hk k' hk' => h.apart k (by simp [hk]) k' (by simp [hk']),
      fun k hk => h.addressed k (by simp [hk]), fun k hk hnot m' hm' => ?_⟩
    all_goals rw [htab]
  · rintro i s₁ (hown | ⟨hkey, rfl, -⟩)
    · exact h.free k (by simp [hk]) key hasks i s₁ hown
    · exact h.apart n (by simp) k (by simp [hk]) key ⟨m, hidle.message, hsus, hkey⟩ hasks
  · rcases passed_cases hnodup hn hk hnot with rfl | ⟨-, hnot'⟩
    · -- what the node asked for it owns from now on
      obtain rfl := hself hm'
      exact ⟨haddr, fun _ key hkey => Or.inr ⟨⟨rfl, hkey⟩, rfl, rfl⟩, hcreates⟩
    · exact (h.guarded k hk hnot' m' hm').mono fun _ _ hown => Or.inl hown
  · exact fun i s₁ hown => h.free k (by simp [hk]) key hasks i s₁ hown.1
  · rcases passed_cases hnodup hn hk hnot with rfl | ⟨hne, hnot'⟩
    · obtain rfl := hself hm'
      have hnotype : m'.type ≠ .KEY_LOCK := by
        rcases hret with htype | htype <;> simp [htype]
      exact ⟨haddr, fun htype => absurd htype hnotype, hcreates⟩
    · exact (h.guarded k hk hnot' m' hm').mono fun _ _ hown => ⟨hown, fun heq => hne heq.1⟩
  · exact h.free k (by simp [hk]) key hasks
  · rcases passed_cases hnodup hn hk hnot with rfl | ⟨-, hnot'⟩
    · obtain rfl := hself hm'
      exact ⟨haddr, fun htype => absurd (Or.inr htype) hsus, hcreates⟩
    · exact h.guarded k hk hnot' m' hm'

/-- A turn of the pass on a node without mark changes only the locks. -/
theorem Grantable.visit (hnodup : (contexts nodes).Nodup) {s s' : PassContext}
    {hint : TraverseHint} {state' : ExecutiveState} (hskip : n.2.skip = false)
    (h : Grantable nodes (n :: active) s.keyLocks)
    (hcall : keyLockCallback s n.2 = .ok (hint, s', state')) :
    (hint = .PASS ∨ hint = .UPDATE) ∧ state' = n.2 ∧ Grantable nodes active s'.keyLocks := by
  obtain ⟨hhint, hstate, -⟩ := h.toSettled.visit hnodup hskip hcall
  exact ⟨hhint, hstate, h.step hnodup hskip hcall⟩

/-- The pass does not throw and leaves guarded messages. -/
theorem Grantable.pass {b : Option StateKey} (h : Grantable nodes active keyLocks)
    (hd : DistinctContexts nodes) (hmarked : Marked none nodes active b) :
    ∃ states' keyLocks' victims, runPass keyLockCallback nodes keyLocks
        = .next states' keyLocks' victims ∧ GuardedNodes keyLocks'.table states' := by
  have hvisit : ∀ {s : PassContext} {n active hint s' state}, n.2.skip = false →
      Grantable nodes (n :: active) s.keyLocks →
      keyLockCallback s n.2 = .ok (hint, s', state) →
      (hint = .PASS ∨ hint = .UPDATE) ∧ state = n.2 ∧ Grantable nodes active s'.keyLocks :=
    fun hskip hJ hcall => hJ.visit hd.nodup hskip hcall
  obtain ⟨⟨states', s'⟩, hrun⟩ := traverseExecutive_pass_ok
    (J := fun s active => Grantable nodes active s.keyLocks) keyLockCallback_updates
    keyLockCallback_skip hvisit
    (fun _ hJ => hJ.callback_ok) hmarked (s := { keyLocks := keyLocks }) h
  obtain ⟨hdone, hperm⟩ := traverseExecutive_pass
    (J := fun s active => Grantable nodes active s.keyLocks) keyLockCallback_skip hvisit
    hd.keyed hd.nodup hmarked h hrun
  refine ⟨states', s'.keyLocks, s'.victims, runPass_next_iff.mpr ⟨s', hrun, rfl, rfl⟩, fun k hk m hm => ?_⟩
  -- the states after the pass are those before it, without marks
  have hmem := hperm.mem_iff.mp (List.mem_map.mpr ⟨k, hk, rfl⟩)
  simp only [List.map_map, List.mem_map, Function.comp_apply] at hmem
  obtain ⟨k', hk', heq⟩ := hmem
  rw [← heq] at hm ⊢
  exact hdone.guarded k' hk' (by simp) m hm

/-- What a node behind asks for after the replies: keys it owns, or keys that
were not published with its message. -/
theorem asks_cases (hinv : FrameInv log c []) (hguard : GuardInv log c [])
    (hcontract : executors.KeepsContract) (hnodup : (contexts c.visited).Nodup)
    (hsent : log.sentTo.Nodup) (hans : Answers executors history log rs)
    (hok : ∀ p ∈ rs, p.2.failed = false)
    (hact : ActiveNodes log.ctx.keyLocks.table c.visited active) (hsub : active ⊆ c.visited)
    (hn : n ∈ active) {k : KeyLock} (hasks : Asks (applyReplies rs n) k) :
    (∃ s, log.ctx.keyLocks.table.own k n.2.contextID s) ∨
    ∃ d ∈ log.dispatched, d.contextID = n.2.contextID ∧ k.1 = d.message.toAddr ∧
      k.2 ∉ d.message.keyLocks := by
  obtain ⟨m, hm, hsus, hkey⟩ := hasks
  rcases hinv.reply_cases hnodup hsent hans hok (hsub hn) with
    ⟨heq, m', hidle⟩ | ⟨d, hd, hf, r, hr, heq⟩
  · rw [heq] at hm
    rcases hact.2 n hn with hnone | ⟨m'', hw⟩
    · exact absurd (hnone.symm.trans hm) (by simp)
    · obtain rfl : m'' = m := Option.some.inj (hw.message.symm.trans hm)
      have howns := (hguard.guarded n (by simpa using hsub hn) m'' hm).owns hw.type k.2 hkey.2
      rw [← hkey.1] at howns
      exact Or.inl ⟨m''.seq, howns⟩
  · rw [heq] at hm
    obtain rfl : r = m := Option.some.inj hm
    exact Or.inr ⟨d, hd, hf.sentFor, hkey.1.trans (hcontract.fromAddr hr hsus),
      hcontract.keyLocks hr hsus k.2 hkey.2⟩

/-- After the replies every key asked for is free. -/
theorem GuardInv.grantable (hguard : GuardInv log c []) (hinv : FrameInv log c [])
    (hkeeps : executors.KeepsFrame) (hcontract : executors.KeepsContract)
    (hnodup : (contexts c.visited).Nodup) (hsent : log.sentTo.Nodup)
    (hans : Answers executors history log rs) (hok : ∀ p ∈ rs, p.2.failed = false)
    (hact : ActiveNodes log.ctx.keyLocks.table c.visited active) (hsub : active ⊆ c.visited) :
    Grantable (c.visited.map (applyReplies rs)) (active.map (applyReplies rs))
      log.ctx.keyLocks := by
  have hcases : ∀ k ∈ active, ∀ {key}, Asks (applyReplies rs k) key → _ := fun k hk key =>
    asks_cases hinv hguard hcontract hnodup hsent hans hok hact hsub hk
  have hctx : ∀ k : Node, (applyReplies rs k).2.contextID = k.2.contextID := fun k =>
    (applyReplies_frame rs k).2.contextID
  -- a published key is not asked for by the receiver
  have hforeign : ∀ {d : Dispatch} {key : KeyLock} {i s}, d ∈ log.dispatched →
      key.1 = d.message.toAddr → key.2 ∉ d.message.keyLocks →
      log.ctx.keyLocks.table.own key i s → i = d.contextID := by
    intro d key i s hd hto hnot hown
    by_contra hne
    exact hnot (hguard.published d hd key.2 i s (hto ▸ hown) hne)
  refine ⟨hinv.settled hkeeps hnodup hsent hans hok hact hsub, ?_, ?_, ?_, ?_⟩
  · intro k' hk' key hasks i s hown
    obtain ⟨k, hk, rfl⟩ := List.mem_map.mp hk'
    rw [hctx]
    rcases hcases k hk hasks with ⟨s', howns⟩ | ⟨d, hd, hfor, hto, hnot⟩
    · exact hinv.exclusive hown howns
    · exact (hforeign hd hto hnot hown).trans hfor
  · intro k₁' hk₁' k₂' hk₂' key hasks₁ hasks₂
    obtain ⟨k₁, hk₁, rfl⟩ := List.mem_map.mp hk₁'
    obtain ⟨k₂, hk₂, rfl⟩ := List.mem_map.mp hk₂'
    rw [hctx, hctx]
    -- each of the two owns the key or was sent a message to its contract
    rcases hcases k₁ hk₁ hasks₁ with ⟨s₁, hown₁⟩ | ⟨d₁, hd₁, hfor₁, hto₁, hnot₁⟩ <;>
      rcases hcases k₂ hk₂ hasks₂ with ⟨s₂, hown₂⟩ | ⟨d₂, hd₂, hfor₂, hto₂, hnot₂⟩
    · exact hinv.exclusive hown₁ hown₂
    · exact (hforeign hd₂ hto₂ hnot₂ hown₁).trans hfor₂
    · exact ((hforeign hd₁ hto₁ hnot₁ hown₂).trans hfor₁).symm
    · rw [← hfor₁, ← hfor₂]
      exact hguard.apart d₁ hd₁ d₂ hd₂ (hto₁.symm.trans hto₂)
  · intro k' hk' m hm
    obtain ⟨k, hk, rfl⟩ := List.mem_map.mp hk'
    rcases hinv.reply_cases hnodup hsent hans hok (hsub hk) with ⟨heq, -⟩ | ⟨d, -, -, r, hr, heq⟩
    · rw [heq] at hm
      have hg := hguard.guarded k (by simpa using hsub hk) m hm
      exact ⟨hg.self, hg.target⟩
    · rw [heq] at hm
      obtain rfl : r = m := Option.some.inj hm
      refine ⟨fun htype => ?_, fun hempty => ?_⟩
      · rw [hcontract.fromAddr hr (Or.inr htype), hcontract.toAddr hr htype]
      · exact (hcontract.target hr hempty).imp_right Or.inr
  · intro k' hk' hnot m hm
    obtain ⟨k, hk, rfl⟩ := List.mem_map.mp hk'
    rcases hinv.reply_cases hnodup hsent hans hok hk with ⟨heq, -⟩ | ⟨d, -, hf, -⟩
    · rw [heq] at hm ⊢
      exact hguard.guarded k (by simpa using hk) m hm
    · exact absurd (List.mem_map.mpr ⟨k, hact.1 k hk hf.message, rfl⟩) hnot

/-! ### Whole runs -/

/-- The deadlock pass keeps messages guarded. -/
theorem GuardInv.deadLock (hguard : GuardInv log c []) (hinv : FrameInv log c [])
    (hnone : log.dispatched = []) :
    ∃ states' victims, runPass deadLockCallback c.visited log.ctx.keyLocks
        = .next states' log.ctx.keyLocks victims ∧
      GuardedNodes log.ctx.keyLocks.table states' := by
  have hwait := hinv.waiting hnone
  have hstates : GuardedNodes log.ctx.keyLocks.table c.visited := by simpa using hguard.guarded
  rcases runPass_deadLock log.ctx.keyLocks (hinv.waiting_unmarked hnone) with
    ⟨-, heq⟩ | ⟨before, n, after, hsplit, -, -, heq⟩
  · exact ⟨_, _, heq, hstates⟩
  · refine ⟨_, _, heq, fun k hk m hm => ?_⟩
    obtain ⟨-, m', hw⟩ := hwait n (by simp [hsplit])
    simp only [List.mem_append, List.mem_cons] at hk
    rcases hk with hk | rfl | hk
    · exact hstates k (by simp [hsplit, hk]) m hm
    · obtain rfl := Option.some.inj (hw.turnBack.message.symm.trans hm)
      refine ⟨by simp, by simp, fun hempty => ?_⟩
      have hcreates := (hstates n (by simp [hsplit]) m' hw.message).target hempty
      rcases hcreates with ht | ht | ht <;> simp [hw.type] at ht
    · exact hstates k (by simp [hsplit, hk]) m hm

/-- A round does not fail and keeps messages guarded. -/
theorem GuardedNodes.round (h : GuardedNodes ctx.keyLocks.table states)
    (hd : DistinctContexts states) (hstate : FrameState states ctx.keyLocks)
    (hkeeps : executors.KeepsFrame) (hcontract : executors.KeepsContract)
    (hsend : sendAll env states ctx = .ok (log, c)) (hans : Answers executors history log rs)
    (hfresh : FreshAddresses log.dispatched) :
    (∃ e, roundEnd log c rs = .error e) ∨ ∃ states' keyLocks victims,
      roundEnd log c rs = .next states' keyLocks victims ∧
      GuardedNodes keyLocks.table states' := by
  have hreach := sendReach_of_sendAll hsend
  have hshape := hreach.shape hd.keyed hd.nodup
  have hinv := hreach.frameInv hd hstate
  have hguard := hreach.guardInv hd hstate h hfresh
  have hnodup : (contexts c.visited).Nodup := by simpa [contexts] using hshape.nodup hd.nodup
  rcases roundEnd_cases log c rs with herr | ⟨hok, ⟨-, htotal, hpass⟩ | hpass⟩
  · exact Or.inl herr
  · have hnone := hshape.dispatched_nil htotal
    obtain ⟨states', victims, heq, hguarded⟩ := hguard.deadLock hinv hnone
    rw [hans.nil hnone, map_applyReplies_nil, heq] at hpass
    exact Or.inr ⟨states', _, victims, hans.nil hnone ▸ hpass, hguarded⟩
  · obtain ⟨active, hmarked, hact⟩ := hinv.marked
    have hgrant := hguard.grantable hinv hkeeps hcontract hnodup hshape.sentNodup hans hok hact
      hmarked.subset.subset
    have hmarked' := hmarked.map (fun n => (applyReplies_frame rs n).1)
      (fun n => (applyReplies_frame rs n).2.skip)
    rw [hpass]
    exact Or.inr (hgrant.pass (hshape.replied hd.nodup rs) hmarked')

theorem Reaches.guarded {states₀ : List Node} {ctx₀ : SendContext}
    (hd : DistinctContexts states₀) (h₀ : FrameState states₀ ctx₀.keyLocks)
    (hguard₀ : GuardedNodes ctx₀.keyLocks.table states₀) (hkeeps : executors.KeepsFrame)
    (hcontract : executors.KeepsContract)
    (h : Reaches env executors states₀ ctx₀ states ctx history)
    (hfresh : ∀ b ∈ history, FreshAddresses b.dispatched) :
    GuardedNodes ctx.keyLocks.table states := by
  induction h with
  | start => exact hguard₀
  | next hreach _ hsend hans hend ih =>
      have hguard := ih fun b hb => hfresh b (List.mem_append_left _ hb)
      have hlast := hfresh _ (List.mem_append_right _ (List.mem_singleton.mpr rfl))
      rcases hguard.round (hreach.distinct hd) (hreach.frameState hd h₀ hkeeps) hkeeps hcontract
        hsend hans hlast with ⟨e, herr⟩ | ⟨states', keyLocks, victims, hnext, hguarded⟩
      · rw [herr] at hend
        cases hend
      · rw [hnext] at hend
        cases hend
        exact hguarded

theorem guardedNodes_blockStates (env : ExecuteEnv) (block : Block) (t : Locks) :
    GuardedNodes t (blockStates env block).1 := by
  intro n hn m hm
  obtain ⟨i, -, p, hget, hmsg, -⟩ := (blockStates_fresh env block n hn).frame
  obtain rfl := Option.some.inj (hmsg.symm.trans hm)
  obtain ⟨-, htype | htype⟩ := blockMessages_get hget
  · exact ⟨by simp [htype], by simp [htype], fun _ => Or.inl htype⟩
  · exact ⟨by simp [htype], by simp [htype], fun _ => Or.inr (Or.inl htype)⟩

/-- **Key-lock safety.**  With executors that keep to the lock protocol and fresh
creation addresses in every batch of the run, no run of a block ends outside the
normal flow; in particular `batchAcquireKeyLock` never throws from `checkBatch`. -/
theorem batchAcquireKeyLock_never_throws {executors : Executors} (hkeeps : executors.KeepsFrame)
    (hcontract : executors.KeepsContract) {env : ExecuteEnv} (hstart : env.startContextID = 0)
    (block : Block) {m : Machine}
    (h : Machine.Steps (env.blockEnv block) env.staticCall executors (dmtStart env block) m)
    (hfresh : ∀ b ∈ m.history, FreshAddresses b.dispatched)
    (hfreshNow : FreshAddresses m.log.dispatched) (f : Fault) :
    m.phase ≠ .finished (.fault f) := by
  intro hphase
  have hd := distinct_blockStates env block
  have h₀ := frameState_blockStates hstart block
  have hexp := Steps.explained hd h
  unfold Explained at hexp
  rw [hphase] at hexp
  obtain ⟨-, states, ctx, log, hreach, -, -, hdisp, hfault⟩ := hexp
  have hdist := hreach.distinct hd
  have hstate := hreach.frameState hd h₀ hkeeps
  -- the fault came from the sending traversal or from the pass that ended the batch
  rcases hfault with ⟨c, n, rest, hsend, herr⟩ | ⟨c, rs, hsend, hans, hround⟩
  · obtain ⟨r, hok⟩ := (hsend.frameInv hdist hstate).visit_ok (env.blockEnv block)
    rw [hok] at herr
    cases herr
  · have hguard := hreach.guarded hd h₀ (guardedNodes_blockStates env block _) hkeeps hcontract
      hfresh
    rcases hguard.round hdist hstate hkeeps hcontract hsend hans (hdisp ▸ hfreshNow) with
      ⟨e, heq⟩ | ⟨states', keyLocks, victims, heq, -⟩
    · rw [heq] at hround
      cases hround
    · rw [heq] at hround
      cases hround

theorem embracing_keepsContract : (Executors.ofFun embracing plainRoot).KeepsContract where
  fromAddr := by
    intro before message r h _
    simp only [Executors.ofFun, embracing] at h
    split_ifs at h
    split at h <;> cases h <;> rfl
  toAddr := by
    intro before message r h htype
    simp only [Executors.ofFun, embracing] at h
    split_ifs at h
    split at h <;> cases h
    · cases htype
    · rfl
    · cases htype
  keyLocks := by
    intro before message r h _ key hkey
    simp only [Executors.ofFun, embracing] at h
    split_ifs at h
    split at h <;> cases h
    · simpa using (List.mem_filter.mp hkey).2
    · cases hkey
    · cases hkey
  target := by
    intro before message r h hempty
    simp only [Executors.ofFun, embracing] at h
    split_ifs at h with hto
    split at h <;> cases h
    · exact Or.inl rfl
    · exact absurd hempty hto
    · exact absurd hempty hto

/-- Two calls that own a key each and wait for the key of the other. -/
theorem batchAcquireKeyLock_never_throws_two_calls :
    ∃ m : Machine, m.log.ctx.keyLocks.graph.edges.length = 4 ∧
      ∀ f, m.phase ≠ .finished (.fault f) := by
  have h := plainRun_steps (callsTo ["a", "b"]) embracing
    [.visit, .visit, .allSended, .reply 0, .reply 1, .visit, .visit, .allSended, .reply 0,
      .reply 1, .visit, .visit, .allSended, .check]
  refine ⟨_, ?_, batchAcquireKeyLock_never_throws embracing_keepsFrame embracing_keepsContract rfl
    _ h ?_ ?_⟩
  · decide +kernel
  · unfold FreshAddresses
    decide +kernel
  · unfold FreshAddresses
    decide +kernel

end BcosScheduler
