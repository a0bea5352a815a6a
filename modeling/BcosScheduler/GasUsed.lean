/-
BcosScheduler/GasUsed.lean

Gas accounting: the total in the block header against the receipts.

When a transaction is erased, `m_gasUsed` grows by `TRANSACTION_GAS` less the gas
that is left, but its receipt gets the gas that is left.  So the header says
what was used of the gas and the receipts what was not; they agree iff both are
half of the gas the block started with, modulo 2^64 (`header_gasUsed_iff`).
-/
import BcosScheduler.Receipts
import Mathlib.Algebra.Order.BigOperators.Group.List
import Mathlib.Data.Int.ModEq

namespace BcosScheduler

/-- The gas left with the last message of a transaction. -/
def finalGas (state : ExecutiveState) : Int :=
  (state.message.map ExecutionMessage.gasAvailable).getD 0

/-- The gas left by all transactions of a run together. -/
def Machine.finalGas (m : Machine) : Int := (m.erasedStates.map BcosScheduler.finalGas).sum

/-- The sum of `gasUsed` over the receipts appended to the block. -/
def receiptsGas (receipts : List (Option Receipt)) : Int :=
  (receipts.map fun receipt => (receipt.map Receipt.gasUsed).getD 0).sum

variable {env : BlockEnv} {executors : Executors} {states states₀ : List Node}
  {ctx ctx₀ : SendContext} {log : SendLog} {c : Cursor} {todo : List Node}
  {history : List BatchLog}

/-! ### The total of a run -/

/-- `m_gasUsed` after a state was erased. -/
def countGas (gasUsed : Nat) (state : ExecutiveState) : Nat := addGasUsed gasUsed (finalGas state)

theorem SendReach.gasUsed (h : SendReach env states ctx log c todo) :
    log.ctx.gasUsed = log.erased.foldl countGas ctx.gasUsed := by
  induction h with
  | start => rfl
  | @step log log' c c' n rest rest' _ hstep ih =>
      rcases sendStep_cases hstep with ⟨-, rfl, -, -⟩ | ⟨-, hint, state, hsends, -⟩
      · exact ih
      · cases hsends with
        | @erase message last _ hmsg _ _ _ =>
            simp only [SendLog.erase, List.foldl_append, List.foldl_cons, List.foldl_nil, countGas,
              finalGas, hmsg, Option.map_some, Option.getD_some, ← ih]
        | _ => exact ih

theorem Reaches.gasUsed (h : Reaches env executors states₀ ctx₀ states ctx history) :
    ctx.gasUsed = (history.flatMap BatchLog.erased).foldl countGas ctx₀.gasUsed := by
  induction h with
  | start => rfl
  | next _ _ hsend _ _ ih =>
      simp only [List.flatMap_append, List.flatMap_cons, List.flatMap_nil, List.append_nil,
        List.foldl_append]
      rw [(sendReach_of_sendAll hsend).gasUsed, ih]

theorem countGas_cast (gasUsed : Nat) (state : ExecutiveState) :
    (countGas gasUsed state : Int) = (gasUsed + (transactionGas - finalGas state)) % 2 ^ 64 := by
  unfold countGas addGasUsed
  exact Int.toNat_of_nonneg (Int.emod_nonneg _ (by norm_num))

/-- The total is the gas that was used, modulo 2^64. -/
theorem foldl_countGas (erased : List ExecutiveState) : ∀ gasUsed : Nat, gasUsed < 2 ^ 64 →
    ((erased.foldl countGas gasUsed : Nat) : Int)
      = (gasUsed + (transactionGas * erased.length - (erased.map finalGas).sum)) % 2 ^ 64 := by
  induction erased with
  | nil =>
      intro gasUsed hlt
      simp only [List.foldl_nil, List.length_nil, List.map_nil, List.sum_nil]
      rw [Int.emod_eq_of_lt (by omega) (by omega)]
      simp
  | cons state rest ih =>
      intro gasUsed _
      have hnext := countGas_cast gasUsed state
      have hlt : countGas gasUsed state < 2 ^ 64 := by
        have := Int.emod_lt_of_pos ((gasUsed : Int) + (transactionGas - finalGas state))
          (b := 2 ^ 64) (by decide)
        omega
      rw [List.foldl_cons, ih _ hlt, hnext, Int.emod_add_emod]
      congr 1
      simp only [List.length_cons, List.map_cons, List.sum_cons, Nat.cast_add, Nat.cast_one]
      ring

/-! ### The receipts of a run -/

theorem sum_receiptsGas (env : BlockEnv) {receipts : List (Option Receipt)} {erased : List ExecutiveState}
    (hindex : (erased.map fun state => state.contextID.toNat).Perm (List.range receipts.length))
    (hget : ∀ state ∈ erased, ∃ message, state.message = some message ∧
      receipts[state.contextID.toNat]? = some (some (createReceipt env message))) :
    receiptsGas receipts = (erased.map finalGas).sum := by
  -- the entry of a receipt is the gas of the state erased for it
  let gasAt (i : Nat) : Int := ((receipts[i]?.join).map Receipt.gasUsed).getD 0
  have hentry : erased.map finalGas = (erased.map fun state => state.contextID.toNat).map gasAt := by
    rw [List.map_map]
    apply List.map_congr_left
    intro state hstate
    obtain ⟨message, hmsg, hreceipt⟩ := hget state hstate
    simp [gasAt, finalGas, hmsg, hreceipt, createReceipt]
  have hrange : receipts.map (fun receipt => (receipt.map Receipt.gasUsed).getD 0)
      = (List.range receipts.length).map gasAt := by
    apply List.ext_getElem
    · simp
    · intro i hi _
      simp only [List.length_map] at hi
      simp [gasAt, List.getElem?_eq_getElem hi]
  rw [receiptsGas, hrange, hentry]
  exact (hindex.map gasAt).sum_eq.symm

/-- Header and receipts of a run of `DMTExecute` from a map with one state for each
context below `t`. -/
theorem Explained.gas {staticCall : Bool} {m : Machine} {t : Nat}
    (h : Explained env executors staticCall states₀ ctx₀ m) (hd : DistinctContexts states₀)
    (hall : (contexts states₀).Perm ((List.range t).map fun j : Nat => (j : ContextID)))
    (hlen : ctx₀.executiveResults.length = t) (hzero : ctx₀.gasUsed = 0) {header : BlockHeader}
    (hphase : m.phase = .finished (.success (some header))) :
    (header.gasUsed : Int) = (transactionGas * t - m.finalGas) % 2 ^ 64 ∧
      receiptsGas m.receipts = m.finalGas := by
  obtain ⟨-, hperm, hreceipts, hlength⟩ := h.receipts hd hall hlen hphase
  have hcount : m.erasedStates.length = t := by simpa using hperm.length_eq
  constructor
  · unfold Explained at h
    rw [hphase] at h
    obtain ⟨ctx, ⟨hreach, -, -, hlog⟩, -, ⟨-, hnone⟩ | ⟨-, hash, -, hsome⟩⟩ := h
    · cases hnone
    · have herased : m.erasedStates = m.history.flatMap BatchLog.erased := by
        simp [Machine.erasedStates, hlog]
      have hgas := foldl_countGas m.erasedStates 0 (by decide)
      rw [hcount, Nat.cast_zero, zero_add] at hgas
      rw [Option.some.inj hsome, Machine.finalGas, ← hgas, herased]
      show ((ctx.gasUsed : Nat) : Int) = _
      rw [hreach.gasUsed, hzero]
  · apply sum_receiptsGas env
    · rw [hlength]
      simpa [Function.comp_def] using hperm.map Int.toNat
    · intro state hstate
      obtain ⟨message, ⟨hmsg, -⟩, hreceipt⟩ := hreceipts state hstate
      exact ⟨message, hmsg, hreceipt⟩

/-- **Header and receipts account for the gas differently.**  If the execution of a
block succeeds, with final gas between 0 and `TRANSACTION_GAS` and receipts that
add up to less than 2^64, then the header's total is the sum of the receipts if
and only if twice the gas that is left is all the gas, modulo 2^64. -/
theorem header_gasUsed_iff (env : ExecuteEnv) (block : Block) {executors : Executors}
    {x : Execution} (h : Execution.Steps env block executors (Execution.start env block) x)
    {m : Machine} (hm : m ∈ x.dmts) {header : BlockHeader}
    (hphase : m.phase = .finished (.success (some header)))
    (hgas : ∀ state ∈ m.erasedStates, 0 ≤ finalGas state ∧ finalGas state ≤ transactionGas)
    (hsum : receiptsGas m.receipts ≤ 2 ^ 64 - 1) :
    (header.gasUsed : Int) = receiptsGas m.receipts ↔
      2 * m.finalGas ≡ transactionGas * block.size [ZMOD 2 ^ 64] := by
  obtain ⟨states, htags, hrun⟩ := (Execution.Steps.inv h).runs m hm
  have hd := distinct_of_tags (distinct_blockStates env block) htags
  obtain ⟨hheader, hreceipts⟩ := (Steps.explained hd hrun).gas hd
    (contexts_of_tags htags ▸ contexts_blockStates env block) (blockResults_length block) rfl hphase
  have hnonneg : 0 ≤ m.finalGas := by
    apply List.sum_nonneg
    intro gas hmem
    obtain ⟨state, hstate, rfl⟩ := List.mem_map.mp hmem
    exact (hgas state hstate).1
  rw [hreceipts] at hsum ⊢
  rw [hheader]
  -- both sides say that all the gas less twice what is left is a multiple of 2^64
  constructor
  · intro heq
    apply Int.modEq_iff_dvd.mpr
    have hdvd := Int.dvd_self_sub_of_emod_eq heq
    rwa [show (transactionGas : Int) * block.size - 2 * m.finalGas
      = transactionGas * block.size - m.finalGas - m.finalGas by ring]
  · intro hmod
    have hdvd := Int.modEq_iff_dvd.mp hmod
    have hmod' : m.finalGas ≡ transactionGas * block.size - m.finalGas [ZMOD 2 ^ 64] := by
      apply Int.modEq_iff_dvd.mpr
      rwa [show (transactionGas : Int) * block.size - m.finalGas - m.finalGas
        = transactionGas * block.size - 2 * m.finalGas by ring]
    rw [← hmod'.eq, Int.emod_eq_of_lt hnonneg (by omega)]

/-! ### Small blocks -/

/-- Executors that finish every call with the given gas left. -/
def leavingGas (gas : Int) (before : List (List ExecutionMessage)) (message : ExecutionMessage) :
    Reply :=
  finishing before { message with gasAvailable := gas }

/-- One call that leaves `gas`, run to its end. -/
def oneCall (gas : Int) : Machine :=
  plainRun (callsTo ["a"]) (leavingGas gas) [.visit, .allSended, .reply 0, .visit, .allSended,
    .check, .hash]

theorem oneCall_steps (gas : Int) :
    ∃ x, Execution.Steps plainEnv (callsTo ["a"]) (.ofFun (leavingGas gas) plainRoot)
      (Execution.start plainEnv (callsTo ["a"])) x ∧ oneCall gas ∈ x.dmts := by
  have hstart : Execution.Step plainEnv (callsTo ["a"]) (.ofFun (leavingGas gas) plainRoot)
      (Execution.start plainEnv (callsTo ["a"])) _ := @Execution.Step.nextBlock _ _ _ _ none rfl
  exact ⟨_, .head hstart (Execution.steps_dmt rfl (plainRun_steps _ _ _)),
    List.mem_singleton.mpr rfl⟩

/-- A call that uses half of its gas. -/
theorem header_gasUsed_half :
    ∃ header, (oneCall 15000000000).phase = .finished (.success (some header)) ∧
      (header.gasUsed : Int) = receiptsGas (oneCall 15000000000).receipts := by
  obtain ⟨x, hrun, hm⟩ := oneCall_steps 15000000000
  have hphase : (oneCall 15000000000).phase
      = .finished (.success (some ⟨7, 9, 15000000000⟩)) := by decide +kernel
  refine ⟨_, hphase, (header_gasUsed_iff plainEnv _ hrun hm hphase ?_ ?_).mpr ?_⟩
  · decide +kernel
  · decide +kernel
  · decide +kernel

/-- A call that uses one unit of its gas. -/
theorem receipt_has_gas_left :
    ∃ x, Execution.Steps plainEnv (callsTo ["a"]) (.ofFun (leavingGas 29999999999) plainRoot)
      (Execution.start plainEnv (callsTo ["a"])) x ∧
    ∃ m ∈ x.dmts, ∃ header, m.phase = .finished (.success (some header)) ∧
      (∀ state ∈ m.erasedStates, 0 ≤ finalGas state ∧ finalGas state ≤ transactionGas) ∧
      receiptsGas m.receipts ≤ 2 ^ 64 - 1 ∧ header.gasUsed = 1 ∧
      receiptsGas m.receipts = 29999999999 := by
  obtain ⟨x, hrun, hm⟩ := oneCall_steps 29999999999
  refine ⟨x, hrun, _, hm, ⟨7, 9, 1⟩, ?_, ?_, ?_, rfl, ?_⟩
  all_goals decide +kernel

end BcosScheduler
