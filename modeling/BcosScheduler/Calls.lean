/-
BcosScheduler/Calls.lean

`SchedulerImpl::call`: read-only calls, any number of them at once.

Each call has a block executive of its own with one transaction and runs
`DMTExecute` at once; the contexts of its messages start at a number that is drawn
from `m_calledContextID`.  Executors tell frames apart by context and sequence
number, so concurrent calls must never be sent messages of one context
(`call_isolated`).
-/
import BcosScheduler.Termination
import BcosScheduler.OwnLocks
import BcosScheduler.Victims

namespace BcosScheduler

variable {env : ExecuteEnv} {number : BlockNumber} {executors : Executors} {staticCall : Bool}
  {m m' : Machine} {start : ContextID}

/-! ### All messages of a run -/

/-- The messages that were sent in earlier batches and in this one. -/
def Machine.sentMessages (m : Machine) : List ExecutionMessage :=
  m.sentBefore.flatten ++ m.log.dispatched.map Dispatch.message

/-- Everything that was sent for a transaction carries its number shifted by the
start. -/
def SentNumbered (start : ContextID) (m : Machine) : Prop :=
  ∀ b ∈ m.history, ∀ d ∈ b.dispatched, d.message.contextID = d.contextID + start

/-- A step adds at most the batch that it completes. -/
theorem Machine.Step.history_cases {env : BlockEnv}
    (hstep : Machine.Step env staticCall executors m m') :
    m'.history = m.history ∨
      ∃ erased victims, m'.history = m.history ++ [⟨m.log.dispatched, erased, victims⟩] := by
  have hcheck : ∀ k : Machine, (k.checkBatch staticCall).history = k.history ∨
      ∃ erased victims, (k.checkBatch staticCall).history
        = k.history ++ [⟨k.log.dispatched, erased, victims⟩] := by
    intro k
    rcases checkBatch_history staticCall k with hsame | ⟨-, -, _, _, victims, -, hnew⟩
    · exact Or.inl hsame
    · exact Or.inr ⟨_, victims, hnew⟩
  cases hstep with
  | visit hphase htodo =>
      left
      unfold Machine.visit
      split <;> rfl
  | allSended hphase htodo => exact Or.inl rfl
  | check hphase htodo hall => exact hcheck m
  | reply hphase hmem hnew hreply => exact hcheck _
  | @hash answer hphase hanswer =>
      left
      cases answer <;> rfl

theorem NumberInv.steps {env : BlockEnv} (hkeeps : executors.KeepsFrame) (h : NumberInv start m)
    (hsent : SentNumbered start m) (hsteps : Machine.Steps env staticCall executors m m') :
    NumberInv start m' ∧ SentNumbered start m' := by
  induction hsteps with
  | refl => exact ⟨h, hsent⟩
  | tail _ hstep ih =>
      refine ⟨ih.1.step hkeeps hstep, fun b hb => ?_⟩
      rcases hstep.history_cases with heq | ⟨erased, victims, heq⟩
      · rw [heq] at hb
        exact ih.2 b hb
      · rw [heq] at hb
        rcases List.mem_append.mp hb with hb | hb
        · exact ih.2 b hb
        · rw [List.mem_singleton.mp hb]
          exact ih.1.sent

/-! ### Calls -/

/-- The block executive of a call. -/
def callEnv (env : ExecuteEnv) (id : ContextID) : ExecuteEnv :=
  { env with startContextID := id, staticCall := true }

/-- The temporary block of a call; a new block has the number `number`. -/
def callBlock (number : BlockNumber) (tx : Transaction) : Block where
  number := number
  transactions := [tx]

/-- A call and how far its `DMTExecute` has come. -/
structure PendingCall where
  id : ContextID
  tx : Transaction
  machine : Machine
  deriving DecidableEq

/-- What a call hands to its caller: an error, or `receipt(0)` of its block, which
may be out of range or null. -/
def callAnswer (m : Machine) : Option (Except Error (Option (Option Receipt))) :=
  match m.phase with
  | .finished (.error _) => some (.error (SchedulerError.UnknownError.error "Unknown error"))
  | .finished (.success _) => some (.ok m.receipts[0]?)
  | _ => none

/-- The calls of a scheduler; `nextContextID` is `m_calledContextID`. -/
structure Calls where
  nextContextID : Nat := 0
  calls : List PendingCall := []
  answers : List (ContextID × Except Error (Option (Option Receipt))) := []
  deriving DecidableEq

namespace Calls

/-- `SchedulerImpl::call` up to the start of `DMTExecute`. -/
def call (env : ExecuteEnv) (number : BlockNumber) (s : Calls) (tx : Transaction) : Calls :=
  { s with nextContextID := s.nextContextID + 1
           calls := s.calls ++ [⟨s.nextContextID, tx,
             dmtStart (callEnv env s.nextContextID) (callBlock number tx)⟩] }

/-- One step: a new call, or a step of a running one. -/
inductive Step (env : ExecuteEnv) (number : BlockNumber) (executors : Executors) :
    Calls → Calls → Prop
  | call {s : Calls} (tx : Transaction) : Step env number executors s (s.call env number tx)
  | dmt {s : Calls} {before after : List PendingCall} {c : PendingCall} {m' : Machine} :
      s.calls = before ++ c :: after →
      Machine.Step ((callEnv env c.id).blockEnv (callBlock number c.tx)) true executors
        c.machine m' →
      Step env number executors s
        { s with calls := before ++ { c with machine := m' } :: after
                 answers := s.answers ++ (callAnswer m').toList.map fun a => (c.id, a) }

/-- Any number of steps from a scheduler without calls. -/
def Steps (env : ExecuteEnv) (number : BlockNumber) (executors : Executors) : Calls → Prop :=
  Relation.ReflTransGen (Step env number executors) {}

end Calls

/-- The run of a call is one of its own. -/
def PendingCall.Runs (env : ExecuteEnv) (number : BlockNumber) (executors : Executors)
    (c : PendingCall) : Prop :=
  Machine.Steps ((callEnv env c.id).blockEnv (callBlock number c.tx)) true executors
    (dmtStart (callEnv env c.id) (callBlock number c.tx)) c.machine

/-- The answer of a call, if it has one. -/
def PendingCall.answer (c : PendingCall) :
    Option (ContextID × Except Error (Option (Option Receipt))) :=
  (callAnswer c.machine).map fun a => (c.id, a)

/-- Whoever makes a step has not answered yet. -/
theorem callAnswer_of_step {env : BlockEnv} (h : Machine.Step env staticCall executors m m') :
    callAnswer m = none := by
  unfold callAnswer
  cases h with
  | visit hphase _ => rw [hphase]
  | allSended hphase _ => rw [hphase]
  | check hphase _ _ => rw [hphase]
  | reply hphase _ _ _ => rw [hphase]
  | hash hphase _ => rw [hphase]

/-- The numbers of the calls are drawn once, every call is a run of its own, and has
answered once iff it has ended. -/
structure Calls.Inv (env : ExecuteEnv) (number : BlockNumber) (executors : Executors)
    (s : Calls) : Prop where
  ids : s.calls.map PendingCall.id = (List.range s.nextContextID).map fun i : Nat => (i : ContextID)
  runs : ∀ c ∈ s.calls, c.Runs env number executors
  answers : s.answers.Perm (s.calls.filterMap PendingCall.answer)

theorem Calls.Step.inv {s s' : Calls} (hstep : Calls.Step env number executors s s')
    (h : s.Inv env number executors) : s'.Inv env number executors := by
  cases hstep with
  | call tx =>
      refine ⟨?_, fun c hc => ?_, ?_⟩
      · show (s.calls ++ [_]).map PendingCall.id = (List.range (s.nextContextID + 1)).map _
        rw [List.map_append, h.ids, List.range_succ, List.map_append]
        rfl
      · rcases List.mem_append.mp hc with hc | hc
        · exact h.runs c hc
        · rw [List.mem_singleton.mp hc]
          exact Relation.ReflTransGen.refl
      · show s.answers.Perm ((s.calls ++ [_]).filterMap PendingCall.answer)
        have hnone : PendingCall.answer ⟨s.nextContextID, tx,
            dmtStart (callEnv env s.nextContextID) (callBlock number tx)⟩ = none := rfl
        rw [List.filterMap_append, List.filterMap_cons, hnone]
        simpa using h.answers
  | @dmt before after c m' hcalls hm =>
      have hids := h.ids
      have hanswers := h.answers
      rw [hcalls] at hids hanswers
      refine ⟨?_, fun k hk => ?_, ?_⟩
      · rw [← hids]
        simp
      · rcases List.mem_append.mp hk with hk | hk
        · exact h.runs k (by simp [hcalls, hk])
        · rcases List.mem_cons.mp hk with rfl | hk
          · exact Relation.ReflTransGen.tail (h.runs c (by simp [hcalls])) hm
          · exact h.runs k (by simp [hcalls, hk])
      · -- the call that made the step had no answer before
        have hnone : c.answer = none := by
          rw [PendingCall.answer, callAnswer_of_step hm]
          rfl
        rw [List.filterMap_append, List.filterMap_cons, hnone] at hanswers
        show (s.answers ++ _).Perm ((before ++ _ :: after).filterMap PendingCall.answer)
        rw [List.filterMap_append, List.filterMap_cons]
        rcases hans : callAnswer m' with _ | a
        · simpa [PendingCall.answer, hans] using hanswers
        · simp only [PendingCall.answer, hans, Option.map_some, Option.toList_some, List.map_cons,
            List.map_nil]
          refine (hanswers.append_right _).trans ?_
          rw [List.append_assoc]
          exact List.Perm.append_left _ (List.perm_append_singleton _ _)

theorem Calls.Steps.inv {s : Calls} (h : Calls.Steps env number executors s) :
    s.Inv env number executors := by
  induction h with
  | refl => exact ⟨rfl, by simp, by simp⟩
  | tail _ hstep ih => exact hstep.inv ih

/-! ### One call -/

theorem contexts_callBlock (env : ExecuteEnv) (number : BlockNumber) (tx : Transaction) :
    ∀ i ∈ contexts (blockStates env (callBlock number tx)).1, i = 0 := by
  intro i hi
  have hmem := (contexts_blockStates env (callBlock number tx)).mem_iff.mp hi
  simpa [callBlock, Block.size] using hmem

theorem PendingCall.Runs.explained {c : PendingCall} (h : c.Runs env number executors) :
    Explained ((callEnv env c.id).blockEnv (callBlock number c.tx)) executors true
      (blockStates (callEnv env c.id) (callBlock number c.tx)).1
      (initialContext (callBlock number c.tx)) c.machine :=
  BcosScheduler.Steps.explained (distinct_blockStates _ _) h

/-- Every message of a call has the number of the call as its context. -/
theorem PendingCall.Runs.sent {c : PendingCall} (hkeeps : executors.KeepsFrame)
    (h : c.Runs env number executors) : ∀ message ∈ c.machine.sentMessages,
      message.contextID = c.id := by
  have hstart : NumberInv c.id (dmtStart (callEnv env c.id) (callBlock number c.tx)) :=
    numberInv_start (numbered_blockStates (callEnv env c.id) _) SoundLocks.empty _
  obtain ⟨hinv, hhistory⟩ := hstart.steps hkeeps (by simp [SentNumbered, dmtStart,
    Machine.startBatch]) h
  have hexp := h.explained
  have hd := distinct_blockStates (callEnv env c.id) (callBlock number c.tx)
  obtain ⟨_, _, hreach⟩ := hexp.reaches
  intro message hmem
  rcases List.mem_append.mp hmem with hmem | hmem
  · obtain ⟨batch, hbatch, hmem⟩ := List.mem_flatten.mp hmem
    obtain ⟨b, hb, rfl⟩ := List.mem_map.mp hbatch
    obtain ⟨d, hdisp, rfl⟩ := List.mem_map.mp hmem
    rw [hhistory b hb d hdisp,
      contexts_callBlock _ _ _ _ (hreach.dispatched_contexts hd b hb d hdisp), zero_add]
  · obtain ⟨d, hdisp, rfl⟩ := List.mem_map.mp hmem
    rw [hinv.sent d hdisp,
      contexts_callBlock _ _ _ _ (hexp.dispatched_contexts hd d hdisp), zero_add]

/-- The receipt of a call: that of the message with which its only state was
erased, when the message emptied the call stack. -/
def PendingCall.HasReceipt (env : ExecuteEnv) (number : BlockNumber) (c : PendingCall)
    (receipt : Receipt) : Prop :=
  ∃ state message, c.machine.erasedStates = [state] ∧ EmptiesStack state message ∧
    receipt = createReceipt ((callEnv env c.id).blockEnv (callBlock number c.tx)) message

/-- A call is answered with an error or with its receipt. -/
theorem PendingCall.Runs.answer {c : PendingCall} (h : c.Runs env number executors)
    {a : Except Error (Option (Option Receipt))} (ha : callAnswer c.machine = some a) :
    a = .error (SchedulerError.UnknownError.error "Unknown error") ∨
      ∃ receipt, c.HasReceipt env number receipt ∧ a = .ok (some (some receipt)) := by
  unfold callAnswer at ha
  rcases hphase : c.machine.phase with _ | _ | (e | header | f)
  · simp [hphase] at ha
  · simp [hphase] at ha
  · rw [hphase] at ha
    exact Or.inl (Option.some.inj ha).symm
  · rw [hphase] at ha
    obtain ⟨-, hperm, hreceipt, -⟩ := h.explained.receipts (distinct_blockStates _ _)
      (contexts_blockStates _ _) (blockResults_length (callBlock number c.tx)) hphase
    have hzero : c.machine.erasedStates.map ExecutiveState.contextID = [0] := by
      simpa [callBlock, Block.size] using hperm
    obtain ⟨state, hone, hctx⟩ := List.map_eq_singleton_iff.mp hzero
    have hmem : state ∈ c.machine.erasedStates := by
      rw [hone]
      exact List.mem_singleton_self state
    obtain ⟨message, hempties, hget⟩ := hreceipt state hmem
    rw [hctx] at hget
    refine Or.inr ⟨_, ⟨state, message, hone, hempties, rfl⟩, ?_⟩
    rw [← hget]
    exact (Option.some.inj ha).symm
  · simp [hphase] at ha

/-- **Concurrent calls are isolated.**  In any interleaving of any number of calls with
executors that keep context and sequence number: the messages of different calls have different
contexts, a call is answered exactly once after it has ended and never before, and the answer is
an error or the receipt of the message that emptied the call stack of its transaction. -/
theorem call_isolated (hkeeps : executors.KeepsFrame) {s : Calls}
    (h : Calls.Steps env number executors s) :
    (s.calls.map PendingCall.id).Nodup ∧
    (∀ c₁ ∈ s.calls, ∀ c₂ ∈ s.calls, c₁ ≠ c₂ →
      ∀ m₁ ∈ c₁.machine.sentMessages, ∀ m₂ ∈ c₂.machine.sentMessages,
        m₁.contextID ≠ m₂.contextID) ∧
    s.answers.Perm (s.calls.filterMap PendingCall.answer) ∧
    ∀ c ∈ s.calls, ∀ a, (c.id, a) ∈ s.answers →
      a = .error (SchedulerError.UnknownError.error "Unknown error") ∨
      ∃ receipt, c.HasReceipt env number receipt ∧ a = .ok (some (some receipt)) := by
  have hinv := h.inv
  have hnodup : (s.calls.map PendingCall.id).Nodup := by
    rw [hinv.ids]
    exact nodup_range_contexts _
  refine ⟨hnodup, fun c₁ hc₁ c₂ hc₂ hne m₁ hm₁ m₂ hm₂ heq => hne ?_, hinv.answers,
    fun c hc a ha => ?_⟩
  · rw [(hinv.runs c₁ hc₁).sent hkeeps m₁ hm₁, (hinv.runs c₂ hc₂).sent hkeeps m₂ hm₂] at heq
    exact List.inj_on_of_nodup_map hnodup hc₁ hc₂ heq
  · obtain ⟨c', hc', hans⟩ := List.mem_filterMap.mp (hinv.answers.mem_iff.mp ha)
    obtain ⟨a', hans', heq⟩ := Option.map_eq_some_iff.mp hans
    obtain ⟨hid, rfl⟩ := Prod.mk.inj heq
    obtain rfl : c' = c := List.inj_on_of_nodup_map hnodup hc' hc hid
    exact (hinv.runs c' hc').answer hans'

/-! ### Scheduled calls -/

namespace Calls

section Schedule

variable (env : ExecuteEnv) (number : BlockNumber)
  (reply : List (List ExecutionMessage) → ExecutionMessage → Reply)
  (hash : List (List ExecutionMessage) → Except Error H256)

/-- Make a move of the call at position `i` if it is possible. -/
def move (s : Calls) (i : Nat) (a : Machine.Move) : Calls :=
  match s.calls[i]? with
  | none => s
  | some c =>
      let m' := c.machine.move ((callEnv env c.id).blockEnv (callBlock number c.tx)) true reply hash a
      if m' = c.machine then s
      else { s with calls := s.calls.set i { c with machine := m' }
                    answers := s.answers ++ (callAnswer m').toList.map fun a => (c.id, a) }

end Schedule

variable {reply : List (List ExecutionMessage) → ExecutionMessage → Reply}
  {hash : List (List ExecutionMessage) → Except Error H256} {s : Calls}

theorem Steps.move (h : Steps env number (.ofFun reply hash) s) (i : Nat) (a : Machine.Move) :
    Steps env number (.ofFun reply hash) (s.move env number reply hash i a) := by
  unfold Calls.move
  rcases hget : s.calls[i]? with _ | c
  · exact h
  · dsimp only
    split_ifs with hsame
    · exact h
    · have hstep := (Machine.move_cases c.machine a).resolve_left hsame
      obtain ⟨hi, hc⟩ := List.getElem?_eq_some_iff.mp hget
      have hcalls : s.calls = s.calls.take i ++ c :: s.calls.drop (i + 1) := by
        rw [← hc, List.getElem_cons_drop hi, List.take_append_drop]
      rw [List.set_eq_take_append_cons_drop, if_pos hi]
      exact Relation.ReflTransGen.tail h (.dmt hcalls hstep)

theorem Steps.run (schedule : List (Nat × Machine.Move)) :
    ∀ {s : Calls}, Steps env number (.ofFun reply hash) s →
      Steps env number (.ofFun reply hash)
        (schedule.foldl (fun s p => s.move env number reply hash p.1 p.2) s) := by
  induction schedule with
  | nil => exact fun h => h
  | cons p rest ih => exact fun h => ih (h.move p.1 p.2)

end Calls

theorem finishing_keepsFrame : (Executors.ofFun finishing plainRoot).KeepsFrame where
  contextID := by
    intro before message r h
    cases h
    rfl
  seq := by
    intro before message r h
    cases h
    rfl

/-- Two calls of one contract whose batches alternate; the second one is answered first. -/
theorem call_isolated_two_calls : ∃ s : Calls, s.answers.map Prod.fst = [1, 0] ∧
    (s.calls.map PendingCall.id).Nodup ∧ s.answers.Perm (s.calls.filterMap PendingCall.answer) := by
  let tx : Transaction := { hash := 1, sender := "s", toAddr := "a" }
  let schedule : List (Nat × Machine.Move) :=
    [(0, .visit), (1, .visit), (1, .allSended), (0, .allSended), (1, .reply 0), (0, .reply 0),
      (1, .visit), (1, .allSended), (1, .check), (0, .visit), (0, .allSended), (0, .check)]
  have hcalls : Calls.Steps plainEnv 7 (.ofFun finishing plainRoot)
      ((({} : Calls).call plainEnv 7 tx).call plainEnv 7 tx) :=
    .tail (.single (.call tx)) (.call tx)
  have hrun := hcalls.run schedule
  obtain ⟨hnodup, -, hperm, -⟩ := call_isolated finishing_keepsFrame hrun
  exact ⟨_, by decide +kernel, hnodup, hperm⟩

end BcosScheduler
