/-
BcosScheduler/Budget.lean

How many messages a transaction takes.

Executors run out of gas: once a number of messages of a transaction was sent
they only let frames return (`Executors.Settles`).  From then on every message
takes a frame from the call stack, and the stack is no deeper than the number of
messages sent before.  So no transaction is sent more than about twice that
number of messages (`Budgeted`), whatever the schedule and the deadlocks were.
-/
import BcosScheduler.KeyLockSafety
import Mathlib.Algebra.Order.BigOperators.Group.Finset

namespace BcosScheduler

/-- How many messages of the transaction are among the batches. -/
def timesSent (batches : List (List ExecutionMessage)) (c : ContextID) : Nat :=
  (batches.flatten.map ExecutionMessage.contextID).count c

/-- After `limit` messages of a transaction in earlier batches its frames only
return. -/
def Executors.Settles (executors : Executors) (limit : Nat) : Prop :=
  ∀ {before message r}, executors.reply before message (.message r) →
    limit ≤ timesSent before message.contextID → r.returns

/-- A state of a transaction that was sent `k` messages and started with at most
`base` frames. -/
structure Budgeted (limit base k : Nat) (state : ExecutiveState) : Prop where
  depth : state.callStack.length ≤ k + base
  returns : limit < k → ∀ m, state.message = some m → m.returns
  spent : limit < k → state.callStack.length + k ≤ 2 * limit + 2 + base

variable {env : BlockEnv} {executors : Executors} {states : List Node} {ctx : SendContext}
  {log log' : SendLog} {c c' : Cursor} {n : Node} {history : List BatchLog}
  {todo rest rest' : List Node} {rs : List (ContextID × Reply)} {state : ExecutiveState}
  {m : ExecutionMessage} {limit base k : Nat}

/-! ### One state -/

theorem Budgeted.start (h : state.callStack.length ≤ base) : Budgeted limit base 0 state where
  depth := by omega
  returns := by omega
  spent := by omega

/-- A message that is no return was sent within the limit. -/
theorem Budgeted.within (h : Budgeted limit base k state) (hmsg : state.message = some m)
    (hret : ¬ m.returns) : k ≤ limit := by
  by_contra hlt
  exact hret (h.returns (by omega) m hmsg)

/-- The mark is not looked at. -/
theorem Budgeted.mark (h : Budgeted limit base k state) (skip : Bool) :
    Budgeted limit base k { state with skip := skip } :=
  ⟨h.depth, h.returns, h.spent⟩

/-- A state whose message is with an executor has only its frames to account for. -/
theorem budgeted_sent {callStack : List Seq} (hdepth : callStack.length ≤ k + base)
    (hspent : limit < k → callStack.length + k ≤ 2 * limit + 2 + base) (state : ExecutiveState)
    (currentSeq : Seq) :
    Budgeted limit base k
      { state with callStack := callStack, currentSeq := currentSeq, message := none } where
  depth := hdepth
  returns := by
    intro _ m hm
    cases hm
  spent := hspent

/-- A message is sent: a frame more, as many, or one less when the budget is spent. -/
theorem Budgeted.prepares (h : Budgeted limit base k state) (hmsg : state.message = some m)
    {callStack : List Seq} {currentSeq : Seq} {keyLocks : GraphKeyLocks} {m' : ExecutionMessage}
    {created : Bool} (hprep : Prepares env ctx state m callStack currentSeq keyLocks m' created) :
    Budgeted limit base (k + 1)
        { state with callStack := callStack, currentSeq := currentSeq, message := none } ∧
      k + 1 ≤ 2 * limit + 1 + base := by
  have hdepth := h.depth
  have hspent := h.spent
  cases hprep with
  | push htype =>
      have hk : k ≤ limit := h.within hmsg (by
        rcases htype with htype | htype <;> simp [ExecutionMessage.returns, htype])
      refine ⟨budgeted_sent ?_ (fun _ => ?_) state _, by omega⟩
      · rw [List.length_cons]
        omega
      · rw [List.length_cons]
        omega
  | @pop returned top frames htype hstack =>
      -- with the budget spent, the frame that goes makes up for the message
      rw [hstack] at hdepth hspent
      simp only [List.length_cons] at hdepth hspent
      refine ⟨budgeted_sent ?_ (fun _ => ?_) state _, ?_⟩
      · rw [List.length_cons]
        omega
      · rw [List.length_cons]
        omega
      · omega
  | revertKeyLock htype =>
      have hk : k ≤ limit := h.within hmsg (by simp [ExecutionMessage.returns, htype])
      exact ⟨budgeted_sent (by omega) (by omega) state _, by omega⟩
  | retry htype =>
      have hk : k ≤ limit := h.within hmsg (by simp [ExecutionMessage.returns, htype])
      exact ⟨budgeted_sent (by omega) (by omega) state _, by omega⟩
  | sendBack htype =>
      have hk : k ≤ limit := h.within hmsg (by simp [ExecutionMessage.returns, htype])
      exact ⟨budgeted_sent (by omega) (by omega) state _, by omega⟩

/-! ### One batch -/

/-- The messages sent to a context before and in this batch. -/
def SendLog.timesSent (log : SendLog) (history : List BatchLog) (c : ContextID) : Nat :=
  BcosScheduler.timesSent (messagesOf history) c + log.sentTo.count c

/-- In the sending traversal. -/
structure BudgetInv (limit base : Nat) (history : List BatchLog) (log : SendLog) (c : Cursor)
    (todo : List Node) : Prop where
  nodes : ∀ n ∈ c.visited ++ todo,
    Budgeted limit base (log.timesSent history n.2.contextID) n.2
  bound : ∀ i, log.timesSent history i ≤ 2 * limit + 1 + base

theorem budgetInv_start (hnodes : ∀ n ∈ states,
      Budgeted limit base (timesSent (messagesOf history) n.2.contextID) n.2)
    (hbound : ∀ i, timesSent (messagesOf history) i ≤ 2 * limit + 1 + base) (ctx : SendContext) :
    BudgetInv limit base history { ctx := ctx } {} states where
  nodes := by simpa [SendLog.timesSent, SendLog.sentTo] using hnodes
  bound := by simpa [SendLog.timesSent, SendLog.sentTo] using hbound

/-- A node is passed as it is, or with the mark `skip`; the locks do not matter. -/
theorem BudgetInv.leave (h : BudgetInv limit base history log c (n :: rest)) (skip : Bool)
    (keyLocks : GraphKeyLocks) {b : Option StateKey} :
    BudgetInv limit base history (log.withLocks keyLocks)
      { c.keep (n.1, { n.2 with skip := skip }) with bound := b } rest := by
  refine ⟨fun k hk => ?_, h.bound⟩
  simp only [Cursor.keep, List.append_assoc, List.mem_append, List.mem_cons,
    List.not_mem_nil, or_false] at hk
  rcases hk with hk | rfl | hk
  · exact h.nodes k (by simp [hk])
  · exact (h.nodes n (by simp)).mark skip
  · exact h.nodes k (by simp [hk])

theorem BudgetInv.step (h : BudgetInv limit base history log c (n :: rest))
    (hinv : FrameInv log c (n :: rest)) (hother : OtherContexts c n rest)
    (hshape : SendShape states log c (n :: rest))
    (hstep : traverseStep (sendCallback env) n rest log c = .ok (log', c', rest')) :
    BudgetInv limit base history log' c' rest' := by
  obtain ⟨⟨m, hidle⟩, -⟩ := hinv.ahead n (by simp)
  rcases sendStep_cases hstep with ⟨-, rfl, rfl, rfl⟩ | ⟨-, hint, state, hsends, heq⟩
  · exact h.leave n.2.skip _ (b := c.bound)
  · cases hsends with
    | error herr => simp [hidle.error] at herr
    | skip =>
        cases heq
        exact h.leave true _
    | wait =>
        cases heq
        exact h.leave n.2.skip _ (b := c.bound)
    | erase =>
        cases heq
        refine ⟨fun k hk => h.nodes k ?_, h.bound⟩
        simp only [List.mem_append, List.mem_cons] at hk ⊢
        tauto
    | @send m' sent callStack currentSeq keyLocks created _ hmsg _ hprep =>
        cases heq
        -- the node was not sent to yet, so it has one message more now and nobody else has
        have hnot : n.2.contextID ∉ log.sentTo := by
          intro hmem
          obtain ⟨k, hk, hctx⟩ := List.mem_map.mp (hshape.sentVisited _ hmem)
          exact hother k (List.mem_append_left _ hk) hctx
        have hmore : ∀ i, (log.sent keyLocks n.2.contextID sent created).timesSent history i
            = log.timesSent history i + if n.2.contextID = i then 1 else 0 := by
          intro i
          simp only [SendLog.timesSent, SendLog.sentTo, SendLog.sent, List.map_append,
            List.map_cons, List.map_nil, List.count_append, List.count_singleton, beq_iff_eq]
          omega
        obtain ⟨hsent, hbound⟩ := (h.nodes n (by simp)).prepares hmsg hprep
        refine ⟨fun k hk => ?_, fun i => ?_⟩
        · simp only [Cursor.keep, List.append_assoc, List.mem_append,
            List.mem_cons, List.not_mem_nil, or_false] at hk
          rw [hmore]
          rcases hk with hk | rfl | hk
          · rw [if_neg (hother k (List.mem_append_left _ hk)).symm]
            exact h.nodes k (by simp [hk])
          · rw [if_pos rfl]
            exact hsent
          · rw [if_neg (hother k (List.mem_append_right _ hk)).symm]
            exact h.nodes k (by simp [hk])
        · rw [hmore]
          split_ifs with heq
          · rw [← heq]
            exact hbound
          · exact h.bound i

theorem SendReach.budgetInv (hd : DistinctContexts states) (hstate : FrameState states ctx.keyLocks)
    (hnodes : ∀ n ∈ states, Budgeted limit base (timesSent (messagesOf history) n.2.contextID) n.2)
    (hbound : ∀ i, timesSent (messagesOf history) i ≤ 2 * limit + 1 + base)
    (h : SendReach env states ctx log c todo) : BudgetInv limit base history log c todo := by
  induction h with
  | start => exact budgetInv_start hnodes hbound _
  | step hreach hstep ih =>
      have hshape := hreach.shape hd.keyed hd.nodup
      exact ih.step (hreach.frameInv hd hstate)
        (otherContexts_of_nodup (hshape.nodup hd.nodup)) hshape hstep

/-! ### Whole rounds -/

/-- The messages of a batch are counted for the contexts they were sent for. -/
theorem FrameInv.timesSent_concat (h : FrameInv log c []) (erased : List ExecutiveState)
    (victims : List ContextID) (i : ContextID) :
    timesSent (messagesOf (history ++ [⟨log.dispatched, erased, victims⟩])) i
      = log.timesSent history i := by
  have hctx : (log.dispatched.map Dispatch.message).map ExecutionMessage.contextID
      = log.sentTo := by
    rw [List.map_map, SendLog.sentTo]
    refine List.map_congr_left fun d hd => ?_
    obtain ⟨n, -, hf⟩ := h.sent d hd
    exact hf.contextID.trans hf.sentFor.symm
  simp only [timesSent, messagesOf, List.map_append, List.map_cons, List.map_nil,
    List.flatten_append, List.flatten_cons, List.flatten_nil, List.append_nil, List.count_append,
    SendLog.timesSent]
  rw [hctx]

/-- After the replies every state is within its budget again. -/
theorem BudgetInv.replied (h : BudgetInv limit base history log c []) (hinv : FrameInv log c [])
    (hsettles : executors.Settles limit) (hnodup : (contexts c.visited).Nodup)
    (hsent : log.sentTo.Nodup) (hans : Answers executors history log rs)
    (hok : ∀ p ∈ rs, p.2.failed = false) :
    ∀ n ∈ c.visited.map (applyReplies rs),
      Budgeted limit base (log.timesSent history n.2.contextID) n.2 := by
  intro k hk
  obtain ⟨n, hn, rfl⟩ := List.mem_map.mp hk
  have hbudget := h.nodes n (by simpa using hn)
  rcases hinv.reply_cases hnodup hsent hans hok hn with ⟨hsame, -⟩ | ⟨d, hd, hf, r, hr, heq⟩
  · rw [hsame]
    exact hbudget
  · rw [heq]
    refine ⟨hbudget.depth, fun hlt m hm => ?_, hbudget.spent⟩
    obtain rfl := Option.some.inj hm
    -- this batch's message is not among the earlier ones, so the limit was reached before it
    apply hsettles hr
    have hcount : log.sentTo.count n.2.contextID = 1 := by
      apply List.count_eq_one_of_mem hsent
      rw [← hf.sentFor]
      exact List.mem_map.mpr ⟨d, hd, rfl⟩
    have hctx : d.message.contextID = n.2.contextID := hf.contextID
    simp only [SendLog.timesSent, hcount] at hlt
    rw [hctx]
    omega

theorem Reaches.budgeted {states₀ : List Node} {ctx₀ : SendContext}
    (hd : DistinctContexts states₀) (h₀ : FrameState states₀ ctx₀.keyLocks)
    (hkeeps : executors.KeepsFrame) (hsettles : executors.Settles limit)
    (hbase : ∀ n ∈ states₀, n.2.callStack.length ≤ base)
    (h : Reaches env executors states₀ ctx₀ states ctx history) :
    (∀ n ∈ states, Budgeted limit base (timesSent (messagesOf history) n.2.contextID) n.2) ∧
      ∀ i, timesSent (messagesOf history) i ≤ 2 * limit + 1 + base := by
  induction h with
  | start =>
      refine ⟨fun n hn => ?_, fun i => ?_⟩
      · exact Budgeted.start (hbase n hn)
      · exact Nat.zero_le _
  | @next states states' ctx history log c rs keyLocks victims hreach _ hsend hans hend ih =>
      have hdist := hreach.distinct hd
      have hstate := hreach.frameState hd h₀ hkeeps
      have hsendReach := sendReach_of_sendAll hsend
      have hshape := hsendReach.shape hdist.keyed hdist.nodup
      have hinv := hsendReach.frameInv hdist hstate
      have hbudget := hsendReach.budgetInv hdist hstate ih.1 ih.2
      have hnodup : (contexts c.visited).Nodup := by
        simpa [contexts] using hshape.nodup hdist.nodup
      simp only [hinv.timesSent_concat]
      refine ⟨?_, hbudget.bound⟩
      rcases roundEnd_cases log c rs with ⟨e, herr⟩ | ⟨hok, ⟨-, htotal, hpass⟩ | hpass⟩
      · rw [herr] at hend
        cases hend
      · -- nothing was sent: everybody waits within the limit, also who is turned back
        have hnone := hshape.dispatched_nil htotal
        have hwait := hinv.waiting hnone
        rw [hans.nil hnone, map_applyReplies_nil] at hpass
        rw [hans.nil hnone, hpass] at hend
        have hkeep := runPass_states (P := fun state =>
            Budgeted limit base (log.timesSent history state.contextID) state ∧
              log.timesSent history state.contextID ≤ limit) ?_ (fun n hn => ?_) hend
        · exact fun n hn => (hkeep n hn).1
        · rintro s state hint s' state' ⟨hb, hle⟩ hcall
          rcases deadLockCallback_cases hcall with ⟨-, -, rfl⟩ | ⟨m, -, -, -, rfl⟩ | ⟨-, -, rfl⟩
          · exact ⟨hb.mark false, hle⟩
          · exact ⟨⟨hb.depth, fun hlt => absurd hle (by simpa using hlt), hb.spent⟩, hle⟩
          · exact ⟨hb, hle⟩
        · have hb := hbudget.nodes n (by simpa using hn)
          obtain ⟨-, m, hw⟩ := hwait n hn
          exact ⟨hb, hb.within hw.message (by simp [ExecutionMessage.returns, hw.type])⟩
      · rw [hpass] at hend
        refine runPass_states (P := fun state =>
            Budgeted limit base (log.timesSent history state.contextID) state)
          (fun hb hcall => ?_)
          (hbudget.replied hinv hsettles hnodup hshape.sentNodup hans hok) hend
        obtain ⟨⟨skip, rfl⟩, -⟩ := keyLockCallback_keeps hcall
        exact hb.mark skip

/-! ### The number of messages and batches -/

/-- As many elements as keys times the most an element occurs. -/
theorem length_le_of_count {α : Type*} [DecidableEq α] {l keys : List α} {k : Nat}
    (hmem : ∀ a ∈ l, a ∈ keys) (hcount : ∀ a, l.count a ≤ k) : l.length ≤ keys.length * k := by
  have hsub : l.toFinset ⊆ keys.toFinset := fun a ha =>
    List.mem_toFinset.mpr (hmem a (List.mem_toFinset.mp ha))
  calc l.length = ∑ a ∈ l.toFinset, l.count a := (List.sum_toFinset_count_eq_length l).symm
    _ ≤ l.toFinset.card * k := Finset.sum_le_card_nsmul _ _ k fun a _ => hcount a
    _ ≤ keys.length * k :=
      Nat.mul_le_mul_right k ((Finset.card_le_card hsub).trans (List.toFinset_card_le keys))

/-- If of two neighbours one satisfies `p`, almost half of the list does. -/
theorem length_le_of_isChain {α : Type*} {p : α → Bool} {l : List α}
    (h : l.IsChain fun a b => p a = true ∨ p b = true) :
    l.length ≤ 2 * l.countP p + 1 ∧ ∀ a ∈ l.head?, p a = true → l.length ≤ 2 * l.countP p := by
  induction l with
  | nil => simp
  | cons a l ih =>
      obtain ⟨hle, hhead⟩ := ih h.tail
      by_cases ha : p a = true
      · simp only [List.length_cons, List.countP_cons, ha, if_true]
        exact ⟨by omega, fun _ _ _ => by omega⟩
      · have hl : l.length ≤ 2 * l.countP p := by
          cases l with
          | nil => simp
          | cons b l => exact hhead b rfl ((List.isChain_cons_cons.mp h).1.resolve_left ha)
        rw [List.countP_cons_of_neg ha, List.length_cons]
        refine ⟨by omega, fun b hb hpb => ?_⟩
        rw [List.head?_cons, Option.mem_some_iff] at hb
        exact absurd (hb ▸ hpb) ha

/-- Messages are sent for transactions of the map only. -/
theorem Reaches.sent_mem {states₀ : List Node} {ctx₀ : SendContext} (hd : DistinctContexts states₀)
    (h : Reaches env executors states₀ ctx₀ states ctx history)
    (hsend : SendReach env states ctx log c todo) :
    ∀ d ∈ log.dispatched, d.contextID ∈ contexts states₀ := by
  intro d hmem
  have hdist := h.distinct hd
  have hshape := hsend.shape hdist.keyed hdist.nodup
  -- who was sent to is behind the cursor, so among the states the batch started with
  have hbehind : d.contextID ∈ contexts c.visited :=
    hshape.sentVisited _ (List.mem_map.mpr ⟨d, hmem, rfl⟩)
  have hthere : d.contextID ∈ contexts states := by
    apply hshape.perm.subset
    rw [contexts_append]
    exact List.mem_append_left _ (List.mem_append_left _ hbehind)
  exact (h.contexts_perm hd).subset (List.mem_append_left _ hthere)

theorem Reaches.dispatched_contexts {states₀ : List Node} {ctx₀ : SendContext}
    (hd : DistinctContexts states₀) (h : Reaches env executors states₀ ctx₀ states ctx history) :
    ∀ b ∈ history, ∀ d ∈ b.dispatched, d.contextID ∈ contexts states₀ := by
  induction h with
  | start => simp
  | next hreach _ hsend _ _ ih =>
      intro b hb
      rcases List.mem_append.mp hb with hb | hb
      · exact ih b hb
      · rw [List.mem_singleton.mp hb]
        exact hreach.sent_mem hd (sendReach_of_sendAll hsend)

theorem Reaches.sent_contexts {states₀ : List Node} {ctx₀ : SendContext}
    (hd : DistinctContexts states₀) (h₀ : FrameState states₀ ctx₀.keyLocks)
    (hkeeps : executors.KeepsFrame)
    (h : Reaches env executors states₀ ctx₀ states ctx history) :
    ∀ i ∈ (messagesOf history).flatten.map ExecutionMessage.contextID, i ∈ contexts states₀ := by
  induction h with
  | start => simp [messagesOf]
  | @next states states' ctx history log c rs keyLocks victims hreach _ hsend _ _ ih =>
      have hsendReach := sendReach_of_sendAll hsend
      have hinv := hsendReach.frameInv (hreach.distinct hd) (hreach.frameState hd h₀ hkeeps)
      intro i hi
      have hpos := List.count_pos_iff.mpr hi
      have hcount : timesSent (messagesOf (history ++ [⟨log.dispatched, log.erased, victims⟩])) i
          = log.timesSent history i := hinv.timesSent_concat log.erased victims i
      rw [timesSent] at hcount
      rw [hcount, SendLog.timesSent] at hpos
      by_cases hold : 0 < timesSent (messagesOf history) i
      · exact ih i (List.count_pos_iff.mp hold)
      · obtain ⟨d, hmem, rfl⟩ := List.mem_map.mp (List.count_pos_iff.mp
          (show 0 < log.sentTo.count i by omega))
        exact hreach.sent_mem hd hsendReach d hmem

theorem countP_dispatched_le (history : List BatchLog) :
    history.countP (fun b => decide (b.dispatched ≠ [])) ≤ (messagesOf history).flatten.length := by
  induction history with
  | nil => simp
  | cons b rest ih =>
      rw [messagesOf, List.map_cons, List.flatten_cons, List.length_append, List.length_map,
        List.countP_cons]
      have hpos : (if decide (b.dispatched ≠ []) = true then 1 else 0) ≤ b.dispatched.length := by
        split_ifs with hb
        · exact List.length_pos_iff.mpr (by simpa using hb)
        · exact Nat.zero_le _
      have := ih
      rw [messagesOf] at this
      omega

/-- The most messages that are sent for `t` transactions. -/
def messageBound (t limit base : Nat) : Nat := t * (2 * limit + 1 + base)

/-- The messages and the batches of a run. -/
theorem Reaches.length_le {states₀ : List Node} {ctx₀ : SendContext}
    (hd : DistinctContexts states₀) (h₀ : FrameState states₀ ctx₀.keyLocks)
    (hkeeps : executors.KeepsFrame) (hsettles : executors.Settles limit)
    (hbase : ∀ n ∈ states₀, n.2.callStack.length ≤ base)
    (h : Reaches env executors states₀ ctx₀ states ctx history) :
    (messagesOf history).flatten.length ≤ messageBound states₀.length limit base ∧
      history.length ≤ 2 * messageBound states₀.length limit base + 1 := by
  have hmessages : (messagesOf history).flatten.length
      ≤ messageBound states₀.length limit base := by
    have hcontexts : (states₀.map fun n => n.2.contextID).length = states₀.length :=
      List.length_map _
    rw [messageBound, ← List.length_map ExecutionMessage.contextID, ← hcontexts]
    exact length_le_of_count (h.sent_contexts hd h₀ hkeeps)
      (h.budgeted hd h₀ hkeeps hsettles hbase).2
  have hchain : history.IsChain fun b b' =>
      decide (b.dispatched ≠ []) = true ∨ decide (b'.dispatched ≠ []) = true := by
    simpa using (h.progress hd h₀ hkeeps).1
  have hbatches := (length_le_of_isChain hchain).1
  have hsends := countP_dispatched_le history
  exact ⟨hmessages, by omega⟩

end BcosScheduler
