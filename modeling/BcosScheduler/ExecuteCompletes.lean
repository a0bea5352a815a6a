/-
BcosScheduler/ExecuteCompletes.lean

Every block is completed.

`asyncExecute` goes through three phases: it waits for `batchNextBlock`, sends the
groups and waits for their replies, and runs `DMTExecute`.  The first two are left
after finitely many steps (`inevitable_started`), since every send and every reply
leaves less to do; the states they leave `DMTExecute` with are as good as those of
the filled map (`startState_cases`), so it comes to its callback with success as
well.  The caller's callback is called exactly once, with a receipt for every
transaction (`asyncExecute_completes`).
-/
import BcosScheduler.ExecuteAgreement
import BcosScheduler.Termination

namespace BcosScheduler

/-! ### Replies of the groups -/

/-- The message that answers one message of a group: of the same frame, no retry with
keys of its own, and with a target unless it creates. -/
structure AnswersMessage (message answer : ExecutionMessage) : Prop where
  contextID : answer.contextID = message.contextID
  seq : answer.seq = message.seq
  retry : answer.type = .KEY_LOCK → answer.fromAddr = answer.toAddr ∧ answer.keyLocks = []
  target : answer.toAddr = "" → answer.creates

/-- The reply to a group answers all of its messages, in their order. -/
structure GroupReply.Answers (messages : List (Option ExecutionMessage)) (r : GroupReply) :
    Prop where
  noError : r.error = none
  length : r.responses.length = messages.length
  response : ∀ (i : Nat) (message : ExecutionMessage), messages[i]? = some (some message) →
    ∃ answer : ExecutionMessage, r.responses[i]? = some (some answer) ∧ AnswersMessage message answer

/-- No answer to a block is an error, and every group is answered. -/
structure BlockReplies.Answers (env : ExecuteEnv) (block : Block) (replies : BlockReplies) :
    Prop where
  nextBlock : replies.nextBlock = none
  group : ∀ contract ∈ dagContracts (blockStates env block).1,
    (replies.group contract).Answers (groupMessages (blockStates env block).1 contract)

variable {env : ExecuteEnv} {block : Block} {executors : Executors} {replies : BlockReplies}
  {x x' : Execution} {states : List Node} {n : Node} {m : Machine} {limit : Nat}

theorem BlockReplies.Answers.not_fails (h : replies.Answers env block) {contract : String}
    (hmem : contract ∈ dagContracts (blockStates env block).1) :
    ¬ (replies.group contract).fails (blockStates env block).1 contract := by
  have hgroup := h.group _ hmem
  rintro (herr | hlen)
  · simp [hgroup.noError] at herr
  · rw [hgroup.length, groupMessages, List.length_map] at hlen
    exact hlen rfl

theorem BlockReplies.Answers.not_error (h : replies.Answers env block) (e : Error) :
    ¬ ExecuteError env block replies e := by
  rintro (⟨-, herr⟩ | ⟨-, -, -, hmem, hfails⟩)
  · simp [h.nextBlock] at herr
  · exact h.not_fails hmem hfails

/-! ### The states DMTExecute starts with -/

/-- A state `DMTExecute` starts with is one of the filled map, or one whose first frame was
pushed for a group that has replied. -/
theorem startState_response (h : StartStates env block replies states) (hn : n ∈ states) :
    n ∈ (blockStates env block).1 ∨ ∃ (c : String) (n₀ : Node) (i : Nat)
      (message : ExecutionMessage) (response : Option ExecutionMessage),
      n₀ ∈ (blockStates env block).1 ∧ n₀.2.message = some message ∧
      (groupMessages (blockStates env block).1 c)[i]? = some (some message) ∧
      (replies.group c).responses[i]? = some response ∧
      n = (n₀.1, { n₀.2 with callStack := [0], currentSeq := 1, message := response }) := by
  cases h with
  | direct => exact Or.inl hn
  | grouped _ _ hrun hdone =>
      rcases hrun.mem_states hdone hn with hn | ⟨c, n₀, i, response, hn₀, hresponse, rfl⟩
      · exact Or.inl hn
      · obtain ⟨hstate, hgroup⟩ := List.mem_filter.mp (List.mem_of_getElem? hn₀)
        have hin : inGroup c n₀ = true := inGroup_iff.mpr (of_decide_eq_true hgroup)
        have hfresh := blockStates_fresh env block n₀ hstate
        obtain ⟨-, -, p, -, hmsg, -⟩ := hfresh.frame
        refine Or.inr ⟨c, n₀, i, p.1, response, hstate, hmsg, ?_, hresponse, ?_⟩
        · rw [groupMessages, List.getElem?_map, ← fiber_some, hn₀, Option.map_some, hmsg]
        · simp only [storeResponse, DagMachine.pushFrame, hin, if_true, hfresh.callStack,
            hfresh.currentSeq, zero_add]

/-- A contract with a message has a group. -/
theorem mem_dagContracts_of_sent {c : String} {i : Nat} {message : Option ExecutionMessage}
    (h : (groupMessages states c)[i]? = some message) : c ∈ dagContracts states := by
  rw [mem_dagContracts, ← List.count_pos_iff, ← groupSize_eq_count, groupSize]
  have hlen := List.length_pos_of_mem (List.mem_of_getElem? h)
  rwa [groupMessages, List.length_map] at hlen

/-- When every group is answered, the first frame of such a state is. -/
theorem startState_cases (h : StartStates env block replies states)
    (hanswers : replies.Answers env block) (hn : n ∈ states) :
    n ∈ (blockStates env block).1 ∨ ∃ n₀ ∈ (blockStates env block).1, ∃ message answer,
      n₀.2.message = some message ∧ AnswersMessage message answer ∧
      n = (n₀.1, { n₀.2 with callStack := [0], currentSeq := 1, message := some answer }) := by
  rcases startState_response h hn with hn | ⟨c, n₀, i, message, response, hn₀, hmsg, hsent,
    hresponse, rfl⟩
  · exact Or.inl hn
  · obtain ⟨answer, hanswer, hans⟩ :=
      (hanswers.group c (mem_dagContracts_of_sent hsent)).response i message hsent
    obtain rfl := Option.some.inj (hresponse.symm.trans hanswer)
    exact Or.inr ⟨n₀, hn₀, message, answer, hmsg, hans, rfl⟩

theorem StartStates.frameState (hstart : env.startContextID = 0)
    (h : StartStates env block replies states) (hanswers : replies.Answers env block) :
    FrameState states (initialContext block).keyLocks := by
  have hblock := frameState_blockStates hstart block
  refine ⟨hblock.wf, hblock.exclusive, fun n hn => ?_, fun i s hholds => ?_⟩
  · rcases startState_cases h hanswers hn with hn | ⟨n₀, hn₀, message, answer, hmsg, hans, rfl⟩
    · exact hblock.idle n hn
    · have hfresh := blockStates_fresh env block n₀ hn₀
      obtain ⟨i, hctx, p, hget, hmsg', -⟩ := hfresh.frame
      obtain rfl := Option.some.inj (hmsg'.symm.trans hmsg)
      obtain ⟨hid, -⟩ := blockMessages_get hget
      refine ⟨⟨answer, rfl, hfresh.error, ?_, Or.inr ⟨[], ?_⟩⟩, hfresh.skip, ?_⟩
      · rw [hans.contextID, hid, hctx, hstart, add_zero]
      · rw [hans.seq, (blockMessages_unsent hget).1]
      · -- nothing is held yet
        rintro _ _ _ ⟨k, hk⟩
        simp [initialContext, LockTable.empty] at hk
  · obtain ⟨k, hk⟩ := hholds
    simp [initialContext, LockTable.empty] at hk

theorem StartStates.guardedNodes (h : StartStates env block replies states)
    (hanswers : replies.Answers env block) (t : Locks) : GuardedNodes t states := by
  intro n hn m hm
  rcases startState_cases h hanswers hn with hn | ⟨n₀, -, message, answer, -, hans, rfl⟩
  · exact guardedNodes_blockStates env block t n hn m hm
  · obtain rfl := Option.some.inj hm
    refine ⟨fun htype => (hans.retry htype).1, fun htype key hkey => ?_, hans.target⟩
    rw [(hans.retry htype).2] at hkey
    cases hkey

theorem StartStates.callStack_length (h : StartStates env block replies states)
    (hanswers : replies.Answers env block) (hn : n ∈ states) : n.2.callStack.length ≤ 1 := by
  rcases startState_cases h hanswers hn with hn | ⟨n₀, -, message, answer, -, -, rfl⟩
  · rw [(blockStates_fresh env block n hn).callStack]
    exact Nat.zero_le _
  · exact le_refl _

theorem StartStates.contexts_perm (h : StartStates env block replies states) :
    (contexts states).Perm ((List.range block.size).map fun j : Nat => (j : ContextID)) := by
  rw [contexts_of_tags h.tags]
  exact contexts_blockStates env block

namespace Execution

/-! ### The phases before DMTExecute -/

/-- A step that changes something. -/
def Moves (env : ExecuteEnv) (block : Block) (executors : Executors) (replies : BlockReplies)
    (x x' : Execution) : Prop :=
  AnsweredStep env block executors replies x x' ∧ x' ≠ x

/-- `DMTExecute` is still to be started. -/
structure Before (env : ExecuteEnv) (block : Block) (executors : Executors)
    (replies : BlockReplies) (x : Execution) : Prop where
  steps : AnsweredSteps env block executors replies x
  dmts : x.dmts = []
  waits : x.nextBlock = true ∨ ∃ d, x.dag = some d ∧ d.todo ++ d.waiting ≠ []

/-- What is left to do before `DMTExecute`. -/
def ahead (x : Execution) : ℕ ×ₗ ℕ :=
  toLex (if x.nextBlock = true then 1 else 0,
    match x.dag with
    | some d => 2 * d.todo.length + d.waiting.length
    | none => 0)

theorem AnsweredSteps.errors_nil (h : AnsweredSteps env block executors replies x)
    (hanswers : replies.Answers env block) : x.errors = [] := by
  apply List.eq_nil_iff_forall_not_mem.mpr
  exact fun e he => hanswers.not_error e (h.answeredInv.errors e he)

theorem AnsweredSteps.failed_eq_zero (h : AnsweredSteps env block executors replies x)
    (hanswers : replies.Answers env block) {d : DagMachine} (hd : x.dag = some d) :
    d.failed = 0 := by
  obtain ⟨-, -, -, answers, hrun⟩ := h.answeredInv.dag d hd
  obtain ⟨replied, hinv⟩ := DagRun.Steps.inv hrun
  by_contra hne
  obtain ⟨c, hc, hfails⟩ := hinv.failed.mp (Nat.pos_of_ne_zero hne)
  exact hanswers.not_fails (hinv.groups.mem_iff.mp (List.mem_append_right _ hc)) hfails

theorem startDMT_dmts_ne_nil (x : Execution) (states : List Node) :
    (x.startDMT block states).dmts ≠ [] := by
  simp [Execution.startDMT]

/-- Before `DMTExecute` every step leaves less to do, or starts it. -/
theorem Before.step (h : x.Before env block executors replies)
    (hanswers : replies.Answers env block)
    (hstep : AnsweredStep env block executors replies x x') :
    x'.dmts ≠ [] ∨ x'.Before env block executors replies ∧ x'.ahead < x.ahead := by
  have hsteps' : AnsweredSteps env block executors replies x' := h.steps.tail hstep
  cases hstep with
  | nextBlock hnext =>
      revert hsteps'
      unfold Execution.afterNextBlock
      dsimp only
      rw [if_neg (by simp [hanswers.nextBlock])]
      split_ifs with hwith hempty
      · exact fun _ => Or.inl (startDMT_dmts_ne_nil _ _)
      · intro hsteps'
        refine Or.inr ⟨⟨hsteps', h.dmts, Or.inr ⟨_, rfl, ?_⟩⟩, ?_⟩
        · simpa [DagMachine.start] using hempty
        · rw [ahead, ahead, if_pos hnext]
          exact Prod.Lex.toLex_lt_toLex.mpr (Or.inl Nat.zero_lt_one)
      · exact fun _ => Or.inl (startDMT_dmts_ne_nil _ _)
  | @dagSend d contract rest hd htodo =>
      refine Or.inr ⟨⟨hsteps', h.dmts, Or.inr ⟨_, rfl, by simp [DagMachine.send]⟩⟩, ?_⟩
      rw [ahead, ahead, hd]
      refine Prod.Lex.toLex_lt_toLex.mpr (Or.inr ⟨rfl, ?_⟩)
      simp only [DagMachine.send, htodo, List.length_append, List.length_cons, List.length_nil]
      omega
  | @dagReply d d' contract hd hmem heq =>
      rcases hans : d'.answer with _ | (e | u)
      · have hreceived : d'.todo = d.todo ∧ d'.waiting = d.waiting.erase contract := by
          rw [heq]
          exact d.receive_queues contract _ _
        rw [hans] at hsteps'
        refine Or.inr ⟨⟨hsteps', h.dmts, Or.inr ⟨d', rfl, fun hnil => ?_⟩⟩, ?_⟩
        · -- without open groups the counter would be zero
          have hcount := ((Steps.inv hsteps'.toSteps).dag d' rfl).2.count
            (hsteps'.failed_eq_zero hanswers rfl)
          rw [hnil] at hcount
          exact DagRun.answer_eq_none_iff.mp hans hcount
        · have hlen := List.length_erase_of_mem hmem
          have hpos := List.length_pos_of_mem hmem
          rw [ahead, ahead, hd]
          refine Prod.Lex.toLex_lt_toLex.mpr (Or.inr ⟨rfl, ?_⟩)
          show 2 * d'.todo.length + d'.waiting.length < 2 * d.todo.length + d.waiting.length
          rw [hreceived.1, hreceived.2]
          omega
      · -- an error would be one of `asyncExecute`
        rw [hans] at hsteps'
        have hnil := hsteps'.errors_nil hanswers
        simp [afterDAG] at hnil
      · exact Or.inl (startDMT_dmts_ne_nil _ _)
  | dmt hdmts =>
      rw [h.dmts] at hdmts
      simp at hdmts

theorem Before.exists_step (h : x.Before env block executors replies) :
    ∃ x', AnsweredStep env block executors replies x x' := by
  rcases h.waits with hnext | ⟨d, hd, hopen⟩
  · exact ⟨_, .nextBlock hnext⟩
  · rcases htodo : d.todo with _ | ⟨contract, rest⟩
    · obtain ⟨contract, hmem⟩ := List.exists_mem_of_ne_nil _ hopen
      rw [htodo, List.nil_append] at hmem
      exact ⟨_, .dagReply hd hmem rfl⟩
    · exact ⟨_, .dagSend hd htodo⟩

/-- `DMTExecute` is started. -/
theorem inevitable_started (hanswers : replies.Answers env block) :
    Inevitable (Moves env block executors replies) (fun x => x.dmts ≠ [])
      (Execution.start env block) := by
  by_cases hstatic : env.staticCall = true
  · apply Inevitable.here
    rw [Execution.start, if_pos hstatic]
    exact startDMT_dmts_ne_nil _ _
  · apply Inevitable.of_measure ahead (I := Before env block executors replies)
    · exact fun x x' h hmove => h.step hanswers hmove.1
    · intro x h hnone
      obtain ⟨x', hstep⟩ := h.exists_step
      refine ⟨x', hstep, ?_⟩
      rintro rfl
      rcases h.step hanswers hstep with hdmts | ⟨-, hlt⟩
      · exact hdmts h.dmts
      · exact lt_irrefl _ hlt
    · refine ⟨Relation.ReflTransGen.refl, ?_, Or.inl ?_⟩
      · simp [Execution.start, hstatic]
      · simp [Execution.start, hstatic]

/-! ### DMTExecute within asyncExecute -/

/-- Put another stand of `DMTExecute` into `x`. -/
def withDMT (x : Execution) (m : Machine) : Execution := { x with dmts := [m] }

theorem steps_withDMT (hdmts : x.dmts = [m]) {m' : Machine}
    (h : Machine.Steps (env.blockEnv block) env.staticCall executors m m')
    (hx : AnsweredSteps env block executors replies x) :
    AnsweredSteps env block executors replies (x.withDMT m') := by
  induction h with
  | refl =>
      rw [withDMT, ← hdmts]
      exact hx
  | tail _ hstep ih =>
    exact Relation.ReflTransGen.tail ih (@AnsweredStep.dmt _ _ _ _ _ [] [] _ _ rfl hstep)

/-- All addresses that are assigned in the batches of the block are new. -/
def AlwaysFresh (env : ExecuteEnv) (block : Block) (executors : Executors)
    (replies : BlockReplies) : Prop :=
  ∀ x, AnsweredSteps env block executors replies x → ∀ m ∈ x.dmts,
    (∀ b ∈ m.history, FreshAddresses b.dispatched) ∧ FreshAddresses m.log.dispatched

/-- The caller was called back once, with success, and the block has all its receipts. -/
def Completed (env : ExecuteEnv) (block : Block) (executors : Executors) (x : Execution) : Prop :=
  ∃ m header, x.dmts = [m] ∧ x.answers = [.ok header] ∧ m.Completed env block executors

theorem answers_withDMT (herrors : x.errors = []) {header : Option BlockHeader}
    (hphase : m.phase = .finished (.success header)) :
    (x.withDMT m).answers = [.ok header] := by
  simp [answers, withDMT, herrors, Machine.answer, hphase]

/-- Once `DMTExecute` is started, nothing else makes a step. -/
theorem AnsweredStep.dmt_cases (hstep : AnsweredStep env block executors replies x x')
    (hdmts : x.dmts = [m]) (hnext : x.nextBlock = false)
    (hdag : ∀ d, x.dag = some d → d.todo = [] ∧ d.waiting = []) :
    ∃ m', Machine.Step (env.blockEnv block) env.staticCall executors m m' ∧ x' = x.withDMT m' := by
  cases hstep with
  | nextBlock hwaits =>
      rw [hnext] at hwaits
      cases hwaits
  | dagSend hd htodo =>
      rw [(hdag _ hd).1] at htodo
      cases htodo
  | dagReply hd hmem =>
      rw [(hdag _ hd).2] at hmem
      cases hmem
  | @dmt before after k₁ k₂ hone hmachine =>
      rw [hdmts] at hone
      have hlen := congrArg List.length hone
      simp only [List.length_append, List.length_cons, List.length_nil] at hlen
      obtain rfl : before = [] := List.eq_nil_of_length_eq_zero (by omega)
      obtain rfl : after = [] := List.eq_nil_of_length_eq_zero (by omega)
      obtain rfl : m = k₁ := by simpa using hone
      exact ⟨k₂, hmachine, rfl⟩

/-- `asyncExecute` comes to its callback with success. -/
theorem inevitable_completed (hkeeps : executors.KeepsFrame) (hcontract : executors.KeepsContract)
    (hsettles : executors.Settles limit) (hreplies : executors.Answers)
    (hsucceeds : executors.Succeeds) (hstart : env.startContextID = 0)
    (hanswers : replies.Answers env block) (hfresh : AlwaysFresh env block executors replies) :
    Inevitable (Moves env block executors replies) (Completed env block executors)
      (Execution.start env block) := by
  have hstarted : Inevitable (Moves env block executors replies) (fun x => x.dmts ≠ [])
      (Execution.start env block) := inevitable_started hanswers
  have hstarted' := hstarted.with_invariant (I := AnsweredSteps env block executors replies)
    Relation.ReflTransGen.refl fun _ _ hrun hmove => Relation.ReflTransGen.tail hrun hmove.1
  refine hstarted'.bind ?_
  rintro x ⟨hne, hx⟩
  obtain hnone | ⟨⟨m, hdmts⟩, hnext, hdag⟩ := (Steps.inv hx.toSteps).once
  · exact absurd hnone hne
  obtain ⟨-, states, hstates, hrun⟩ := hx.answeredInv.runs m (by simp [hdmts])
  have hfresh' : BcosScheduler.AlwaysFresh (env.blockEnv block) env.staticCall executors m :=
    fun m' hm' => hfresh _ (steps_withDMT hdmts hm' hx) m' (by simp [withDMT])
  have hcompleted := BcosScheduler.inevitable_completed hstates.distinct
    (hstates.frameState hstart hanswers) (hstates.guardedNodes hanswers _)
    hstates.contexts_perm (fun n hn => hstates.callStack_length hanswers hn) hkeeps hcontract
    hsettles hreplies hsucceeds hrun hfresh'
  have hx' : x = x.withDMT m := by rw [withDMT, ← hdmts]
  rw [hx']
  refine hcompleted.lift (withDMT x) (fun k k' hmove => ?_) (fun k y _ hmove => ?_)
    fun k hk => .here ?_
  · refine ⟨@AnsweredStep.dmt _ _ _ _ (x.withDMT k) [] [] _ _ rfl hmove.1, fun heq => ?_⟩
    have := congrArg Execution.dmts heq
    simp only [withDMT, List.cons.injEq, and_true] at this
    exact hmove.2 this
  · obtain ⟨hstep, hother⟩ := hmove
    have hnext' : (x.withDMT k).nextBlock = false := hnext
    obtain ⟨k', hmachine, rfl⟩ := hstep.dmt_cases rfl hnext' hdag
    refine ⟨k', ⟨hmachine, ?_⟩, rfl⟩
    rintro rfl
    exact hother rfl
  · obtain ⟨header, hphase, -⟩ := hk.success
    exact ⟨k, header, rfl, answers_withDMT (hx.errors_nil hanswers) hphase, hk⟩

end Execution

open Execution

theorem finishedGroups_answers (env : ExecuteEnv) (block : Block)
    (htarget : ∀ p ∈ blockMessages env block, p.1.toAddr ≠ "") :
    (finishedGroups env block).Answers env block where
  nextBlock := rfl
  group := by
    intro contract _
    refine ⟨rfl, by simp [finishedGroups], fun i message hmessage => ?_⟩
    refine ⟨{ message with type := .FINISHED, fromAddr := message.toAddr }, ?_, rfl, rfl, ?_, ?_⟩
    · simp [finishedGroups, hmessage]
    · simp
    · intro hempty
      -- the message is that of a transaction
      obtain ⟨n, hn, hmsg⟩ := List.mem_map.mp (List.mem_of_getElem? hmessage)
      obtain ⟨j, -, p, hget, hp, -⟩ :=
        (blockStates_fresh env block n (List.mem_filter.mp hn).1).frame
      obtain rfl := Option.some.inj (hp.symm.trans hmsg)
      exact absurd hempty (htarget p (List.mem_of_getElem? hget))

theorem alwaysFresh_of_size (hone : block.size ≤ 1) :
    Execution.AlwaysFresh env block executors replies := by
  intro x hx m hm
  obtain ⟨-, states, hstates, hrun⟩ := hx.answeredInv.runs m hm
  have hlen : states.length ≤ 1 := by
    have := hstates.contexts_perm.length_eq
    simp only [contexts, List.length_map, List.length_range] at this
    omega
  exact alwaysFresh_of_one hstates.distinct hlen m hrun

end BcosScheduler
