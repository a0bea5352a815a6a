/-
BcosScheduler/AsyncExecute.lean

The first part of `BlockExecutive::asyncExecute`: one message, one executive
state and one result per transaction of the block.

Transactions come as metadata or in full; `enableDAG` of a state says whether
it or an earlier transaction has the DAG attribute.  Without any DAG attribute
the block goes to `DMTExecute` directly (`dmtStart`).
-/
import BcosScheduler.Simulation

namespace BcosScheduler

/-- The bits of `Transaction::Attribute` that `asyncExecute` tests. -/
structure TransactionAttribute where
  liquidScaleCodec : Bool := false
  liquidCreate : Bool := false
  dag : Bool := false
  deriving DecidableEq, Repr

/-- `TransactionMetaData`. -/
structure TransactionMetaData where
  hash : H256
  toAddr : String
  attributes : TransactionAttribute := {}
  source : String := ""
  deriving DecidableEq, Repr

/-- `Transaction`, with the fields `asyncExecute` reads. -/
structure Transaction where
  hash : H256
  sender : String
  toAddr : String
  input : Bytes := []
  attributes : TransactionAttribute := {}
  source : String := ""
  deriving DecidableEq, Repr

/-- `Block`: metadata or full transactions. -/
structure Block where
  number : BlockNumber
  metaData : List TransactionMetaData := []
  transactions : List Transaction := []
  deriving DecidableEq, Repr

/-- The number of transactions `asyncExecute` goes through. -/
def Block.size (block : Block) : Nat :=
  if block.metaData ≠ [] then block.metaData.length else block.transactions.length

/-- The members of `BlockExecutive` and `SchedulerImpl` that `asyncExecute`
reads. -/
structure ExecuteEnv where
  hashImpl : Bytes → H256
  startContextID : ContextID := 0
  staticCall : Bool := false
  isAuthCheck : Bool := false
  /-- `precompiled::AUTH_COMMITTEE_ADDRESS`. -/
  authCommitteeAddress : String

section Fill

variable (env : ExecuteEnv)

/-- The message of a transaction given by its metadata. -/
def metaDataMessage (i : Nat) (metaData : TransactionMetaData) : ExecutionMessage :=
  let message : ExecutionMessage :=
    { type := .TXHASH, contextID := i + env.startContextID, transactionHash := metaData.hash
      depth := 0, gasAvailable := transactionGas, staticCall := false }
  if metaData.attributes.liquidScaleCodec then
    { message with create := metaData.attributes.liquidCreate, toAddr := metaData.toAddr }
  else if metaData.toAddr = "" then { message with create := true }
  else { message with toAddr := preprocessAddress metaData.toAddr }

/-- The message of a full transaction. -/
def transactionMessage (number : BlockNumber) (i : Nat) (tx : Transaction) : ExecutionMessage :=
  let message : ExecutionMessage :=
    { type := .MESSAGE, contextID := i + env.startContextID
      origin := toHex tx.sender, fromAddr := toHex tx.sender
      depth := 0, gasAvailable := transactionGas, data := tx.input, staticCall := env.staticCall }
  if tx.attributes.liquidScaleCodec then
    { message with create := tx.attributes.liquidCreate, toAddr := tx.toAddr }
  else if tx.toAddr = "" then { message with create := true }
  else
    -- the first deployment of the auth contract is a creation at a known address
    { message with
      create := env.isAuthCheck && !env.staticCall && number = 0 &&
        tx.toAddr = env.authCommitteeAddress
      toAddr := preprocessAddress tx.toAddr }

/-- The messages of a block with their DAG attribute. -/
def blockMessages (block : Block) : List (ExecutionMessage × Bool) :=
  if block.metaData ≠ [] then
    block.metaData.mapIdx fun i metaData => (metaDataMessage env i metaData, metaData.attributes.dag)
  else
    block.transactions.mapIdx fun i tx =>
      (transactionMessage env block.number i tx, tx.attributes.dag)

/-- `m_executiveResults` after the loop. -/
def blockResults (block : Block) : List ExecutiveResult :=
  if block.metaData ≠ [] then
    block.metaData.map fun metaData =>
      { transactionHash := metaData.hash, source := metaData.source }
  else block.transactions.map fun tx => { transactionHash := tx.hash, source := tx.source }

end Fill

/-- The loop that fills `m_executiveStates` from transaction `i` on; the flag is
`withDAG`. -/
def fillStates : Nat → Bool → List (ExecutionMessage × Bool) → List Node → List Node × Bool
  | _, withDAG, [], states => (states, withDAG)
  | i, withDAG, (message, dag) :: rest, states =>
      fillStates (i + 1) (withDAG || dag) rest
        (OrderedMap.emplace (toLex (message.toAddr, (i : ContextID)))
          { contextID := i, message := some message, enableDAG := withDAG || dag } states)

/-- `m_executiveStates` and `withDAG` after the loop. -/
def blockStates (env : ExecuteEnv) (block : Block) : List Node × Bool :=
  fillStates 0 false (blockMessages env block) []

/-- The members of the block executive when its first batch starts. -/
def initialContext (block : Block) : SendContext where
  keyLocks := {}
  executiveResults := blockResults block
  gasUsed := 0

/-- `DMTExecute` of a block without DAG transactions. -/
def dmtStart (env : ExecuteEnv) (block : Block) : Machine :=
  Machine.startBatch (blockStates env block).1 (initialContext block) []

def ExecuteEnv.blockEnv (env : ExecuteEnv) (block : Block) : BlockEnv where
  number := block.number
  hashImpl := env.hashImpl

/-! ### The filled map -/

/-- A state as the loop makes it. -/
structure FreshState (messages : List (ExecutionMessage × Bool)) (n : Node) : Prop where
  frame : ∃ i : Nat, n.2.contextID = i ∧ ∃ p, messages[i]? = some p ∧ n.2.message = some p.1 ∧
    n.1 = toLex (p.1.toAddr, (i : ContextID))
  callStack : n.2.callStack = []
  currentSeq : n.2.currentSeq = 0
  error : n.2.error = none
  skip : n.2.skip = false

theorem fillStates_spec (messages : List (ExecutionMessage × Bool)) :
    ∀ (rest : List (ExecutionMessage × Bool)) (i : Nat) (withDAG : Bool) (states : List Node),
      messages.drop i = rest → (∀ n ∈ states, FreshState messages n) →
      (contexts states).Perm ((List.range i).map (fun j : Nat => (j : ContextID))) →
      (∀ n ∈ (fillStates i withDAG rest states).1, FreshState messages n) ∧
      (contexts (fillStates i withDAG rest states).1).Perm
        ((List.range (i + rest.length)).map fun j : Nat => (j : ContextID)) := by
  intro rest
  induction rest with
  | nil => exact fun i withDAG states _ hfresh hperm => ⟨hfresh, hperm⟩
  | cons p rest ih =>
      intro i withDAG states hdrop hfresh hperm
      obtain ⟨message, dag⟩ := p
      have hget : messages[i]? = some (message, dag) := by
        rw [← List.head?_drop, hdrop]
        rfl
      -- no earlier state has the context `i`, so `emplace` inserts
      have habsent : ∀ e ∈ states, e.1 ≠ toLex (message.toAddr, (i : ContextID)) := by
        intro e he heq
        obtain ⟨j, hctx, q, -, -, hkey⟩ := (hfresh e he).frame
        have hmem : (j : ContextID) ∈ contexts states := by
          rw [← hctx]
          exact List.mem_map.mpr ⟨e, he, rfl⟩
        obtain ⟨k, hk, hkj⟩ := List.mem_map.mp (hperm.mem_iff.mp hmem)
        have hij : (j : ContextID) = i := by
          rw [hkey] at heq
          exact congrArg Prod.snd (toLex.injective heq)
        have hlt := List.mem_range.mp hk
        simp only [Int.natCast_inj] at hkj hij
        omega
      have hput := OrderedMap.emplace_perm (v := ({ contextID := (i : ContextID)
                                                    message := some message
                                                    enableDAG := withDAG || dag } : ExecutiveState))
        habsent
      have hnext := ih (i + 1) (withDAG || dag) (OrderedMap.emplace
        (toLex (message.toAddr, (i : ContextID)))
        { contextID := i, message := some message, enableDAG := withDAG || dag } states) ?_ ?_ ?_
      · rw [List.length_cons, ← Nat.add_assoc, Nat.add_right_comm]
        exact hnext
      · rw [← List.drop_drop, hdrop]
        rfl
      · intro n hn
        rcases List.mem_cons.mp (hput.mem_iff.mp hn) with rfl | hn
        · exact ⟨⟨i, rfl, _, hget, rfl, rfl⟩, rfl, rfl, rfl, rfl⟩
        · exact hfresh n hn
      · apply (hput.map _).trans
        rw [List.range_succ, List.map_append]
        exact (List.Perm.cons _ hperm).trans (List.perm_append_singleton _ _).symm

theorem fillStates_ascending (messages : List (ExecutionMessage × Bool)) :
    ∀ (i : Nat) (withDAG : Bool) {states : List Node}, OrderedMap.Ascending states →
      OrderedMap.Ascending (fillStates i withDAG messages states).1 := by
  induction messages with
  | nil => exact fun _ _ _ h => h
  | cons p rest ih => exact fun i withDAG _ h => ih (i + 1) (withDAG || p.2) (h.emplace _ _)

theorem blockStates_fresh (env : ExecuteEnv) (block : Block) :
    ∀ n ∈ (blockStates env block).1, FreshState (blockMessages env block) n :=
  (fillStates_spec (blockMessages env block) _ 0 false [] rfl (by simp) (by simp [contexts])).1

theorem blockResults_length (block : Block) : (blockResults block).length = block.size := by
  unfold blockResults Block.size
  split_ifs <;> simp

theorem blockMessages_length (env : ExecuteEnv) (block : Block) :
    (blockMessages env block).length = block.size := by
  unfold blockMessages Block.size
  split_ifs <;> simp

/-- There is one state for each transaction. -/
theorem contexts_blockStates (env : ExecuteEnv) (block : Block) :
    (contexts (blockStates env block).1).Perm
      ((List.range block.size).map fun j : Nat => (j : ContextID)) := by
  have h := (fillStates_spec (blockMessages env block) (blockMessages env block) 0 false [] rfl
    (by simp) (by simp [contexts])).2
  rwa [Nat.zero_add, blockMessages_length] at h

/-- The messages of a block are requests, numbered from `m_startContextID`. -/
theorem blockMessages_get {env : ExecuteEnv} {block : Block} {i : Nat}
    {p : ExecutionMessage × Bool} (h : (blockMessages env block)[i]? = some p) :
    p.1.contextID = i + env.startContextID ∧ (p.1.type = .MESSAGE ∨ p.1.type = .TXHASH) := by
  unfold blockMessages at h
  split_ifs at h
  · simp only [List.getElem?_mapIdx, Option.map_eq_some_iff] at h
    obtain ⟨metaData, -, rfl⟩ := h
    simp only [metaDataMessage]
    split_ifs <;> exact ⟨rfl, Or.inr rfl⟩
  · simp only [List.getElem?_mapIdx, Option.map_eq_some_iff] at h
    obtain ⟨tx, -, rfl⟩ := h
    simp only [transactionMessage]
    split_ifs <;> exact ⟨rfl, Or.inl rfl⟩

/-- They are not numbered yet, hold no key, and tell by their hash how they were
given. -/
theorem blockMessages_unsent {env : ExecuteEnv} {block : Block} {i : Nat}
    {p : ExecutionMessage × Bool} (h : (blockMessages env block)[i]? = some p) :
    p.1.seq = 0 ∧ p.1.keyLocks = [] ∧
      ((p.1.type = .TXHASH ∧ ∃ metaData ∈ block.metaData,
          p.1.transactionHash = metaData.hash) ∨
        p.1.type = .MESSAGE ∧ p.1.transactionHash = 0) := by
  unfold blockMessages at h
  split_ifs at h
  · simp only [List.getElem?_mapIdx, Option.map_eq_some_iff] at h
    obtain ⟨metaData, hmem, rfl⟩ := h
    have hmem := List.mem_of_getElem? hmem
    simp only [metaDataMessage]
    split_ifs <;> exact ⟨rfl, rfl, Or.inl ⟨rfl, metaData, hmem, rfl⟩⟩
  · simp only [List.getElem?_mapIdx, Option.map_eq_some_iff] at h
    obtain ⟨tx, -, rfl⟩ := h
    simp only [transactionMessage]
    split_ifs <;> exact ⟨rfl, rfl, Or.inr ⟨rfl, rfl⟩⟩

theorem nodup_range_contexts (t : Nat) :
    ((List.range t).map fun j : Nat => (j : ContextID)).Nodup :=
  List.Nodup.map (fun _ _ h => Int.ofNat.inj h) List.nodup_range

theorem distinct_blockStates (env : ExecuteEnv) (block : Block) :
    DistinctContexts (blockStates env block).1 where
  keyed := by
    intro n hn
    obtain ⟨i, hctx, p, -, -, hkey⟩ := (blockStates_fresh env block n hn).frame
    rw [hkey, hctx]
    rfl
  nodup := (contexts_blockStates env block).nodup_iff.mpr (nodup_range_contexts _)

/-! ### Small blocks -/

/-- An environment with a constant hash function. -/
def plainEnv : ExecuteEnv where
  hashImpl := fun _ => 0
  authCommitteeAddress := "auth"

/-- A block of calls to the given contracts. -/
def callsTo (contracts : List String) : Block where
  number := 7
  metaData := contracts.map fun contract => { hash := 1, toAddr := contract }

/-- Executors that finish every call at once, and their state root. -/
def finishing (_ : List (List ExecutionMessage)) (message : ExecutionMessage) : Reply :=
  .message { message with type := .FINISHED, fromAddr := message.toAddr, keyLocks := [] }

def plainRoot (_ : List (List ExecutionMessage)) : Except Error H256 := .ok 9

/-- A scheduled run of a block in the plain environment. -/
def plainRun (block : Block)
    (reply : List (List ExecutionMessage) → ExecutionMessage → Reply)
    (schedule : List Machine.Move) : Machine :=
  (dmtStart plainEnv block).run (plainEnv.blockEnv block) false reply plainRoot schedule

theorem plainRun_steps (block : Block)
    (reply : List (List ExecutionMessage) → ExecutionMessage → Reply)
    (schedule : List Machine.Move) :
    Machine.Steps (plainEnv.blockEnv block) false (.ofFun reply plainRoot)
      (dmtStart plainEnv block) (plainRun block reply schedule) :=
  Machine.run_steps _ _

end BcosScheduler
