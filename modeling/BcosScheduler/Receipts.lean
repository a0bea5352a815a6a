/-
BcosScheduler/Receipts.lean

One receipt per transaction.

The traversal of `startBatch` assigns a receipt exactly when it erases a state,
so the results are the initial ones with the receipts of the erased states, in
that order (`Reaches.results`).  When no state is left every context was erased
once, and `DMTExecute` appends the receipts to the block, as often as
`batchGetHashes` answers.  Here it answers once (`Machine.Step.hash`).
-/
import BcosScheduler.Dag

namespace BcosScheduler

/-- The assignment of a receipt when a state is erased. -/
def assignReceipt (env : BlockEnv) (results : List ExecutiveResult) (state : ExecutiveState) :
    List ExecutiveResult :=
  match state.message with
  | none => results
  | some message => results.modify state.contextID.toNat fun result =>
      { result with receipt := some (createReceipt env message) }

/-- The message returns from the only frame of the state. -/
def EmptiesStack (state : ExecutiveState) (message : ExecutionMessage) : Prop :=
  state.message = some message ∧ message.returns ∧ ∃ last, state.callStack = [last]

variable {env : BlockEnv} {executors : Executors} {states states₀ : List Node}
  {ctx ctx₀ : SendContext} {log log' : SendLog} {c c' : Cursor} {n : Node}
  {todo rest rest' : List Node} {history : List BatchLog}

/-! ### Assignments of a run -/

theorem SendReach.results (h : SendReach env states ctx log c todo) :
    log.ctx.executiveResults = log.erased.foldl (assignReceipt env) ctx.executiveResults ∧
    ∀ state ∈ log.erased, ∃ message, EmptiesStack state message := by
  induction h with
  | start => exact ⟨rfl, by simp⟩
  | @step log log' c c' n rest rest' _ hstep ih =>
      rcases sendStep_cases hstep with ⟨-, rfl, -, -⟩ | ⟨-, hint, state, hsends, -⟩
      · exact ih
      · cases hsends with
        | @erase message last _ hmsg _ htype hstack =>
            refine ⟨?_, fun state hstate => ?_⟩
            · simp only [SendLog.erase, List.foldl_append, List.foldl_cons, List.foldl_nil,
                assignReceipt, hmsg, ← ih.1]
            · rcases List.mem_append.mp hstate with hstate | hstate
              · exact ih.2 state hstate
              · rw [List.mem_singleton.mp hstate]
                exact ⟨message, hmsg, htype, last, hstack⟩
        | _ => exact ih

theorem Reaches.results (h : Reaches env executors states₀ ctx₀ states ctx history) :
    ctx.executiveResults
      = (history.flatMap BatchLog.erased).foldl (assignReceipt env) ctx₀.executiveResults ∧
    ∀ state ∈ history.flatMap BatchLog.erased, ∃ message, EmptiesStack state message := by
  induction h with
  | start => exact ⟨rfl, by simp⟩
  | next _ _ hsend _ _ ih =>
      obtain ⟨hresults, herased⟩ := (sendReach_of_sendAll hsend).results
      simp only [List.flatMap_append, List.flatMap_cons, List.flatMap_nil, List.append_nil,
        List.foldl_append]
      refine ⟨by rw [hresults, ih.1], fun state hstate => ?_⟩
      rcases List.mem_append.mp hstate with hstate | hstate
      · exact ih.2 state hstate
      · exact herased state hstate

/-! ### Results after the assignments -/

theorem assignReceipt_length (results : List ExecutiveResult) (state : ExecutiveState) :
    (assignReceipt env results state).length = results.length := by
  unfold assignReceipt
  split <;> simp

theorem foldl_assignReceipt_length (erased : List ExecutiveState) :
    ∀ results, (erased.foldl (assignReceipt env) results).length = results.length := by
  induction erased with
  | nil => exact fun _ => rfl
  | cons state rest ih => exact fun results => (ih _).trans (assignReceipt_length results state)

theorem assignReceipt_get_of_ne {results : List ExecutiveResult} {state : ExecutiveState} {i : Nat}
    (h : state.contextID.toNat ≠ i) : (assignReceipt env results state)[i]? = results[i]? := by
  unfold assignReceipt
  split
  · rfl
  · rw [List.getElem?_modify_ne _ _ h]

/-- An entry is left alone by the assignments to others. -/
theorem foldl_assignReceipt_get_of_ne {erased : List ExecutiveState} {i : Nat} :
    ∀ {results : List ExecutiveResult}, (∀ state ∈ erased, state.contextID.toNat ≠ i) →
      (erased.foldl (assignReceipt env) results)[i]? = results[i]? := by
  induction erased with
  | nil => exact fun _ => rfl
  | cons state rest ih =>
      intro results h
      rw [List.foldl_cons, ih fun k hk => h k (by simp [hk]),
        assignReceipt_get_of_ne (h state (by simp))]

/-- An entry assigned once has the receipt of that assignment. -/
theorem foldl_assignReceipt_get {erased : List ExecutiveState}
    (hnodup : (erased.map fun state => state.contextID.toNat).Nodup) {state : ExecutiveState}
    {message : ExecutionMessage} (hmem : state ∈ erased) (hmsg : state.message = some message)
    {results : List ExecutiveResult} (hlt : state.contextID.toNat < results.length) :
    ((erased.foldl (assignReceipt env) results)[state.contextID.toNat]?).map
      ExecutiveResult.receipt = some (some (createReceipt env message)) := by
  induction erased generalizing results with
  | nil => cases hmem
  | cons first rest ih =>
      obtain ⟨hnew, hrest⟩ := List.nodup_cons.mp hnodup
      rw [List.foldl_cons]
      rcases List.mem_cons.mp hmem with rfl | hmem
      · -- the later assignments go to other entries
        rw [foldl_assignReceipt_get_of_ne fun k hk heq =>
          hnew (List.mem_map.mpr ⟨k, hk, heq⟩)]
        simp [assignReceipt, hmsg, List.getElem?_eq_getElem hlt]
      · exact ih hrest hmem (by rw [assignReceipt_length]; exact hlt)

/-! ### Whole runs -/

/-- The receipts of a run of `DMTExecute` from a map with one state for each
context below `t`. -/
theorem Explained.receipts {staticCall : Bool} {m : Machine} {t : Nat}
    (h : Explained env executors staticCall states₀ ctx₀ m) (hd : DistinctContexts states₀)
    (hall : (contexts states₀).Perm ((List.range t).map fun j : Nat => (j : ContextID)))
    (hlen : ctx₀.executiveResults.length = t) {header : Option BlockHeader}
    (hphase : m.phase = .finished (.success header)) :
    m.log.ctx.executiveResults
      = m.erasedStates.foldl (assignReceipt env) ctx₀.executiveResults ∧
    (m.erasedStates.map ExecutiveState.contextID).Perm
      ((List.range t).map fun j : Nat => (j : ContextID)) ∧
    (∀ state ∈ m.erasedStates, ∃ message, EmptiesStack state message ∧
      m.receipts[state.contextID.toNat]? = some (some (createReceipt env message))) ∧
    m.receipts.length = t := by
  unfold Explained at h
  rw [hphase] at h
  obtain ⟨ctx, ⟨hreach, -, -, hlog⟩, hreceipts, -⟩ := h
  have herased : m.erasedStates = m.history.flatMap BatchLog.erased := by
    simp [Machine.erasedStates, hlog]
  obtain ⟨hresults, hempties⟩ := hreach.results
  have hperm : (m.erasedStates.map ExecutiveState.contextID).Perm
      ((List.range t).map fun j : Nat => (j : ContextID)) := by
    rw [herased]
    exact (hreach.contexts_perm hd).trans hall
  rw [← herased] at hresults hempties
  -- contexts are indices into the results, each erased once
  have hindex : (m.erasedStates.map fun state => state.contextID.toNat).Perm (List.range t) := by
    simpa [Function.comp_def] using hperm.map Int.toNat
  refine ⟨by rw [hlog]; exact hresults, hperm, fun state hstate => ?_, ?_⟩
  · obtain ⟨message, hmessage⟩ := hempties state hstate
    have hlt : state.contextID.toNat < ctx₀.executiveResults.length := by
      rw [hlen]
      exact List.mem_range.mp (hindex.mem_iff.mp (List.mem_map.mpr ⟨state, hstate, rfl⟩))
    refine ⟨message, hmessage, ?_⟩
    rw [hreceipts, List.getElem?_map, hresults]
    exact foldl_assignReceipt_get (hindex.nodup_iff.mpr List.nodup_range) hstate hmessage.1 hlt
  · rw [hreceipts, List.length_map, hresults, foldl_assignReceipt_length, hlen]

end BcosScheduler
