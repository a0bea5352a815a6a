/-
BcosScheduler/Notify.lean

`BlockExecutive::asyncNotify`: after the commit of a block the results of its
transactions are handed to the transaction pool.

The results come from `m_executiveResults` by position, while receipts were written
there by context when a transaction returned for good.  For an executed block every
transaction is reported once, under its own hash and with the receipt of its own last
return, and no pointer that `asyncNotify` follows is null
(`asyncNotify_reports`).
-/
import BcosScheduler.ExecuteAgreement
import BcosScheduler.Receipts

namespace BcosScheduler

/-- `TransactionSubmitResult`. -/
structure TransactionSubmitResult where
  transactionIndex : Nat
  blockHash : H256
  txHash : H256
  status : Int
  receipt : Receipt
  nonce : Option (BitVec 256) := none
  deriving DecidableEq

/-- What a call of `asyncNotify` comes to. -/
inductive NotifyCall
  /-- Without a notifier nothing happens, and the callback is never called. -/
  | ignored
  /-- The notifier is called. -/
  | notified (number : BlockNumber) (results : List TransactionSubmitResult)
  /-- A null receipt or transaction is dereferenced. -/
  | nullPointer
  deriving DecidableEq

section

variable (syncBlock : Bool) (nonces : List (BitVec 256)) (blockHash : H256)

/-- The body of the loop. -/
def submitResult (index : Nat) (it : ExecutiveResult) : Option TransactionSubmitResult :=
  match it.receipt with
  | none => none
  | some receipt =>
      let result : TransactionSubmitResult :=
        { transactionIndex := index, blockHash := blockHash, txHash := it.transactionHash
          status := receipt.status, receipt := receipt }
      if syncBlock then
        -- `m_block->transaction(index)`
        match nonces[index]? with
        | none => none
        | some nonce => some { result with nonce := some nonce }
      else some result

/-- The loop over `m_executiveResults`. -/
def submitResults : Nat → List ExecutiveResult → Option (List TransactionSubmitResult)
  | _, [] => some []
  | index, it :: rest =>
      match submitResult syncBlock nonces blockHash index it with
      | none => none
      | some result => (submitResults (index + 1) rest).map fun results => result :: results

/-- `asyncNotify`; `nonces` are those of the transactions that the block has in full. -/
def asyncNotify (notifier : Bool) (number : BlockNumber) (executiveResults : List ExecutiveResult) :
    NotifyCall :=
  if notifier then
    match submitResults syncBlock nonces blockHash 0 executiveResults with
    | some results => .notified number results
    | none => .nullPointer
  else .ignored

end

variable {syncBlock : Bool} {nonces : List (BitVec 256)} {blockHash : H256}

/-! ### The loop -/

/-- `result` reports the executive result `it` at position `i`. -/
structure Reports (syncBlock : Bool) (nonces : List (BitVec 256)) (hash : H256) (i : Nat)
    (it : ExecutiveResult) (result : TransactionSubmitResult) : Prop where
  transactionIndex : result.transactionIndex = i
  blockHash : result.blockHash = hash
  txHash : result.txHash = it.transactionHash
  receipt : it.receipt = some result.receipt
  status : result.status = result.receipt.status
  nonce : result.nonce = if syncBlock then nonces[i]? else none

theorem submitResult_reports (blockHash : H256) {i : Nat} {it : ExecutiveResult}
    (hreceipt : it.receipt ≠ none) (hnonce : syncBlock = true → i < nonces.length) :
    ∃ result, submitResult syncBlock nonces blockHash i it = some result ∧
      Reports syncBlock nonces blockHash i it result := by
  obtain ⟨receipt, hsome⟩ := Option.ne_none_iff_exists'.mp hreceipt
  unfold submitResult
  rw [hsome]
  dsimp only
  split_ifs with hsync
  · obtain ⟨nonce, hget⟩ : ∃ nonce, nonces[i]? = some nonce :=
      ⟨_, List.getElem?_eq_getElem (hnonce hsync)⟩
    rw [hget]
    exact ⟨_, rfl, rfl, rfl, rfl, hsome, rfl, by rw [if_pos hsync, hget]⟩
  · exact ⟨_, rfl, rfl, rfl, rfl, hsome, rfl, by rw [if_neg hsync]⟩

/-- With all receipts there, position `i` of the loop reports result `i`. -/
theorem submitResults_reports (blockHash : H256) {its : List ExecutiveResult} :
    ∀ k : Nat, (∀ it ∈ its, it.receipt ≠ none) →
      (syncBlock = true → k + its.length ≤ nonces.length) →
      ∃ results, submitResults syncBlock nonces blockHash k its = some results ∧
        results.length = its.length ∧
        ∀ (i : Nat) (result : TransactionSubmitResult), results[i]? = some result →
          ∃ it, its[i]? = some it ∧ Reports syncBlock nonces blockHash (k + i) it result := by
  induction its with
  | nil => exact fun _ _ _ => ⟨[], rfl, rfl, by simp⟩
  | cons it rest ih =>
      intro k hreceipts hnonces
      have hlen : syncBlock = true → k + (rest.length + 1) ≤ nonces.length := by
        simpa using hnonces
      obtain ⟨result, hresult, hreports⟩ := submitResult_reports blockHash
        (hreceipts it List.mem_cons_self) fun hsync => by
          have := hlen hsync
          show k < nonces.length
          omega
      obtain ⟨results, hresults, hlength, hget⟩ := ih (k + 1)
        (fun other hother => hreceipts other (List.mem_cons_of_mem it hother)) fun hsync => by
          have := hlen hsync
          omega
      refine ⟨result :: results, ?_, by rw [List.length_cons, List.length_cons, hlength], ?_⟩
      · rw [submitResults, hresult, hresults]
        rfl
      · rintro (_ | i) other hother
        · rw [List.getElem?_cons_zero] at hother
          cases hother
          exact ⟨it, rfl, hreports⟩
        · rw [List.getElem?_cons_succ] at hother
          obtain ⟨it', hit', hreports'⟩ := hget i other hother
          rw [Nat.add_right_comm] at hreports'
          exact ⟨it', hit', hreports'⟩

/-! ### Executed blocks -/

/-- The hashes of the transactions, in the order of the block. -/
def Block.hashes (block : Block) : List H256 :=
  if block.metaData ≠ [] then block.metaData.map TransactionMetaData.hash
  else block.transactions.map Transaction.hash

theorem blockResults_hashes (block : Block) :
    (blockResults block).map ExecutiveResult.transactionHash = block.hashes := by
  unfold blockResults Block.hashes
  split_ifs
  · rw [List.map_map]
    rfl
  · rw [List.map_map]
    rfl

/-- Receipts are assigned, hashes stay. -/
theorem assignReceipt_hashes (env : BlockEnv) (results : List ExecutiveResult)
    (state : ExecutiveState) :
    (assignReceipt env results state).map ExecutiveResult.transactionHash
      = results.map ExecutiveResult.transactionHash := by
  unfold assignReceipt
  split
  · rfl
  · apply List.ext_getElem?
    intro i
    rw [List.getElem?_map, List.getElem?_map, List.getElem?_modify]
    split_ifs <;> simp [Function.comp_def]

theorem foldl_assignReceipt_hashes (env : BlockEnv) (erased : List ExecutiveState) :
    ∀ results : List ExecutiveResult,
      (erased.foldl (assignReceipt env) results).map ExecutiveResult.transactionHash
        = results.map ExecutiveResult.transactionHash := by
  induction erased with
  | nil => exact fun _ => rfl
  | cons state rest ih => exact fun results => (ih _).trans (assignReceipt_hashes env results state)

/-- The receipts that `DMTExecute` appends to the block are those of the results. -/
theorem Explained.receipts_eq {env : BlockEnv} {executors : Executors} {staticCall : Bool}
    {states₀ : List Node} {ctx₀ : SendContext} {m : Machine} {header : Option BlockHeader}
    (h : Explained env executors staticCall states₀ ctx₀ m)
    (hphase : m.phase = .finished (.success header)) :
    m.receipts = m.log.ctx.executiveResults.map ExecutiveResult.receipt := by
  unfold Explained at h
  rw [hphase] at h
  obtain ⟨ctx, ⟨-, -, -, hlog⟩, hreceipts, -⟩ := h
  rw [hreceipts, hlog]

/-- **Every transaction is reported.**  After a successful execution of a block, with or without
DAG transactions and whatever the executors replied, the notifier gets one result for each
transaction, at its position and under its hash, with the receipt that the block has there and
that was made when this transaction returned for good.  A block that was not proposed by the node
itself has to have its transactions in full. -/
theorem asyncNotify_reports (env : ExecuteEnv) (block : Block) {executors : Executors}
    {x : Execution} (h : Execution.Steps env block executors (Execution.start env block) x)
    {m : Machine} (hm : m ∈ x.dmts) {header : Option BlockHeader}
    (hphase : m.phase = .finished (.success header))
    (hnonces : syncBlock = true → nonces.length = block.size) (blockHash : H256)
    (number : BlockNumber) :
    ∃ results, asyncNotify syncBlock nonces blockHash true number m.log.ctx.executiveResults
        = .notified number results ∧
      results.length = block.size ∧
      ∀ (i : Nat) (result : TransactionSubmitResult), results[i]? = some result →
        result.transactionIndex = i ∧ result.blockHash = blockHash ∧
        block.hashes[i]? = some result.txHash ∧
        m.receipts[i]? = some (some result.receipt) ∧
        result.status = result.receipt.status ∧
        (result.nonce = if syncBlock then nonces[i]? else none) ∧
        ∃ state ∈ m.erasedStates, state.contextID = i ∧ ∃ message, EmptiesStack state message ∧
          result.receipt = createReceipt (env.blockEnv block) message := by
  obtain ⟨states, htags, hrun⟩ := (Execution.Steps.inv h).runs m hm
  have hd := distinct_of_tags (distinct_blockStates env block) htags
  have hexp := Steps.explained hd hrun
  obtain ⟨hresults, hperm, hstates, hlength⟩ := hexp.receipts hd
    (contexts_of_tags htags ▸ contexts_blockStates env block) (blockResults_length block) hphase
  have hreceipts := hexp.receipts_eq hphase
  have hsize : m.log.ctx.executiveResults.length = block.size := by
    rw [← hlength, hreceipts, List.length_map]
  -- every position belongs to a transaction that returned for good
  have hreturned : ∀ i, i < block.size → ∃ state ∈ m.erasedStates, state.contextID = i ∧
      ∃ message, EmptiesStack state message ∧
        m.receipts[i]? = some (some (createReceipt (env.blockEnv block) message)) := by
    intro i hi
    have hmem : (i : ContextID) ∈ m.erasedStates.map ExecutiveState.contextID :=
      hperm.mem_iff.mpr (List.mem_map.mpr ⟨i, List.mem_range.mpr hi, rfl⟩)
    obtain ⟨state, hstate, hctx⟩ := List.mem_map.mp hmem
    obtain ⟨message, hempties, hreceipt⟩ := hstates state hstate
    rw [hctx, Int.toNat_natCast] at hreceipt
    exact ⟨state, hstate, hctx, message, hempties, hreceipt⟩
  have hthere : ∀ it ∈ m.log.ctx.executiveResults, it.receipt ≠ none := by
    intro it hit
    obtain ⟨i, hi, rfl⟩ := List.mem_iff_getElem.mp hit
    obtain ⟨-, -, -, message, -, hreceipt⟩ := hreturned i (hsize ▸ hi)
    rw [hreceipts, List.getElem?_map, List.getElem?_eq_getElem hi] at hreceipt
    rw [Option.some.inj hreceipt]
    exact Option.some_ne_none _
  have hfull : syncBlock = true → 0 + m.log.ctx.executiveResults.length ≤ nonces.length := by
    intro hsync
    rw [hnonces hsync, hsize, Nat.zero_add]
  obtain ⟨results, heq, hlen, hget⟩ := submitResults_reports blockHash 0 hthere hfull
  refine ⟨results, by rw [asyncNotify, if_pos rfl, heq], hlen.trans hsize, fun i result hi => ?_⟩
  obtain ⟨it, hit, hreports⟩ := hget i result hi
  rw [Nat.zero_add] at hreports
  have hlt : i < block.size := hsize ▸ (List.getElem?_eq_some_iff.mp hit).1
  obtain ⟨state, hstate, hctx, message, hempties, hreceipt⟩ := hreturned i hlt
  have hown : m.receipts[i]? = some (some result.receipt) := by
    rw [hreceipts, List.getElem?_map, hit, Option.map_some, hreports.receipt]
  refine ⟨hreports.transactionIndex, hreports.blockHash, ?_, hown, hreports.status, hreports.nonce,
    state, hstate, hctx, message, hempties, ?_⟩
  · rw [← blockResults_hashes, ← foldl_assignReceipt_hashes (env.blockEnv block) m.erasedStates,
      show blockResults block = (initialContext block).executiveResults from rfl, ← hresults,
      List.getElem?_map, hit, hreports.txHash]
    rfl
  · rw [hown] at hreceipt
    exact Option.some.inj (Option.some.inj hreceipt)

/-- Two transactions in full; the replies come in reverse order. -/
def fullCalls : Block where
  number := 7
  transactions := [{ hash := 1, sender := "s", toAddr := "b" },
    { hash := 2, sender := "s", toAddr := "a" }]

theorem asyncNotify_reports_two_calls : ∃ (m : Machine) (results : List TransactionSubmitResult),
    m.phase = .finished (.success (some ⟨7, 9, 0⟩)) ∧
      asyncNotify true [5, 6] 3 true 7 m.log.ctx.executiveResults = .notified 7 results ∧
      results.length = 2 ∧ ∀ (i : Nat) (result : TransactionSubmitResult),
        results[i]? = some result → fullCalls.hashes[i]? = some result.txHash := by
  let schedule : List Execution.Move := [.nextBlock, .dmt .visit, .dmt .visit, .dmt .allSended,
    .dmt (.reply 1), .dmt (.reply 0), .dmt .visit, .dmt .visit, .dmt .allSended, .dmt .check,
    .dmt .hash]
  let x := Execution.run plainEnv fullCalls (finishedGroups plainEnv fullCalls) finishing plainRoot
    schedule
  have hx : Execution.AnsweredSteps plainEnv fullCalls (.ofFun finishing plainRoot)
      (finishedGroups plainEnv fullCalls) x := Execution.run_answeredSteps schedule
  obtain ⟨m, hm, hphase⟩ : ∃ m ∈ x.dmts, m.phase = .finished (.success (some ⟨7, 9, 0⟩)) := by
    decide +kernel
  have hnonces : true = true → ([5, 6] : List (BitVec 256)).length = fullCalls.size := fun _ => rfl
  obtain ⟨results, heq, hlen, hget⟩ :=
    asyncNotify_reports plainEnv fullCalls hx.toSteps hm hphase hnonces 3 7
  exact ⟨m, results, hphase, heq, hlen, fun i result hi => (hget i result hi).2.2.1⟩

end BcosScheduler
