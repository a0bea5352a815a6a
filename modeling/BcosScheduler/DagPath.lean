/-
BcosScheduler/DagPath.lean

Which transactions take the DAG path.

`asyncExecute` keeps one flag for the block, set by the first transaction with
the DAG attribute, and gives its current value to every state it makes.  So
`DAGExecute` sends a transaction iff it or an earlier one has the attribute;
these are the transactions with the attribute iff none without it comes after
one with it (`dagSent_iff`).
-/
import BcosScheduler.Dag

namespace BcosScheduler

variable {env : ExecuteEnv} {block : Block} {executors : Executors} {x x' : Execution}
  {states : List Node} {sent : List ContextID}

/-- The DAG attribute of the transaction `i`. -/
def Block.dag (block : Block) (i : Nat) : Bool :=
  if block.metaData ≠ [] then (block.metaData[i]?.map fun d => d.attributes.dag).getD false
  else (block.transactions[i]?.map fun tx => tx.attributes.dag).getD false

/-- The transactions sent with the group of a contract. -/
def groupContexts (states : List Node) (contract : String) : List ContextID :=
  (states.filter (inGroup contract)).map fun n => n.2.contextID

namespace Execution

/-- The transactions a step sends through `DAGExecute`: those of the groups that
it takes off the loop. -/
def sentBy (x x' : Execution) : List ContextID :=
  match x.dag, x'.dag with
  | some d, some d' =>
      (d.todo.take (d.todo.length - d'.todo.length)).flatMap (groupContexts d.states)
  | _, _ => []

/-- A run of `asyncExecute` with the transactions it has sent through
`DAGExecute`. -/
inductive DagSends (env : ExecuteEnv) (block : Block) (executors : Executors) :
    Execution → List ContextID → Prop
  | start : DagSends env block executors (Execution.start env block) []
  | step {x x' : Execution} {sent : List ContextID} : DagSends env block executors x sent →
      Step env block executors x x' → DagSends env block executors x' (sent ++ x.sentBy x')

/-- `asyncExecute` is through with the DAG path: its loop has sent every group, or
`DMTExecute` was started without it. -/
def DagThrough (x : Execution) : Prop :=
  (∃ d, x.dag = some d ∧ d.todo = []) ∨ x.dag = none ∧ x.dmts ≠ []

theorem DagSends.steps (h : DagSends env block executors x sent) :
    Steps env block executors (Execution.start env block) x := by
  induction h with
  | start => exact Relation.ReflTransGen.refl
  | step _ hstep ih => exact ih.tail hstep

end Execution

/-! ### The flag of a state -/

theorem mem_fillStates {n : Node} (rest : List (ExecutionMessage × Bool)) :
    ∀ {i : Nat} {withDAG : Bool} {states : List Node}, n ∈ (fillStates i withDAG rest states).1 →
      n ∈ states ∨ ∃ k, k < rest.length ∧ n.2.contextID = ((i + k : Nat) : ContextID) ∧
        n.2.enableDAG = (withDAG || (rest.take (k + 1)).any Prod.snd) := by
  induction rest with
  | nil => exact fun h => Or.inl h
  | cons p rest ih =>
      intro i withDAG states h
      obtain ⟨message, dag⟩ := p
      rcases ih h with h | ⟨k, hk, hctx, hflag⟩
      · rcases OrderedMap.mem_of_mem_emplace h with rfl | h
        · exact Or.inr ⟨0, by simp, rfl, by simp⟩
        · exact Or.inl h
      · refine Or.inr ⟨k + 1, by simpa using hk, ?_, ?_⟩
        · rw [hctx]
          congr 1
          omega
        · rw [hflag, List.take_succ_cons, List.any_cons, Bool.or_assoc]

theorem fillStates_withDAG (rest : List (ExecutionMessage × Bool)) :
    ∀ (i : Nat) (withDAG : Bool) (states : List Node),
      (fillStates i withDAG rest states).2 = (withDAG || rest.any Prod.snd) := by
  induction rest with
  | nil => simp [fillStates]
  | cons p rest ih =>
      intro i withDAG states
      rw [fillStates, ih, List.any_cons, Bool.or_assoc]

/-- The attribute of a transaction is what comes with its message. -/
theorem blockMessages_dag (env : ExecuteEnv) (block : Block) (i : Nat) :
    ((blockMessages env block)[i]?.map Prod.snd).getD false = block.dag i := by
  unfold blockMessages Block.dag
  split_ifs
  · rw [List.getElem?_mapIdx, Option.map_map]
    rfl
  · rw [List.getElem?_mapIdx, Option.map_map]
    rfl

theorem any_take_blockMessages (env : ExecuteEnv) (block : Block) (k : Nat) :
    ((blockMessages env block).take k).any Prod.snd = true ↔ ∃ j < k, block.dag j = true := by
  simp only [List.any_eq_true, List.mem_take_iff_getElem, ← blockMessages_dag env block]
  constructor
  · rintro ⟨p, ⟨j, hj, rfl⟩, hflag⟩
    have hlen : j < (blockMessages env block).length := by omega
    exact ⟨j, by omega, by simp [List.getElem?_eq_getElem hlen, hflag]⟩
  · rintro ⟨j, hj, hflag⟩
    rcases hget : (blockMessages env block)[j]? with _ | p
    · simp [hget] at hflag
    · obtain ⟨hlen, hp⟩ := List.getElem?_eq_some_iff.mp hget
      refine ⟨p, ⟨j, by omega, hp⟩, ?_⟩
      simpa [hget] using hflag

/-- A state has `enableDAG` iff its transaction or an earlier one has the
attribute. -/
theorem enableDAG_iff {n : Node} (h : n ∈ (blockStates env block).1) :
    ∃ i : Nat, n.2.contextID = i ∧ (n.2.enableDAG = true ↔ ∃ j ≤ i, block.dag j = true) := by
  rcases mem_fillStates _ h with h | ⟨k, -, hctx, hflag⟩
  · cases h
  · refine ⟨k, by simpa using hctx, ?_⟩
    rw [hflag, Bool.false_or, any_take_blockMessages]
    simp only [Nat.lt_succ_iff]

theorem withDAG_iff (env : ExecuteEnv) (block : Block) :
    (blockStates env block).2 = true ↔ ∃ j, block.dag j = true := by
  rw [blockStates, fillStates_withDAG, Bool.false_or, ← List.take_length (l := blockMessages env block),
    any_take_blockMessages]
  constructor
  · rintro ⟨j, -, hflag⟩
    exact ⟨j, hflag⟩
  · rintro ⟨j, hflag⟩
    refine ⟨j, ?_, hflag⟩
    by_contra hlen
    rw [← blockMessages_dag env, List.getElem?_eq_none (by omega)] at hflag
    cases hflag

/-! ### What the loop sends -/

theorem groupContexts_of_tags {nodes : List Node} (h : nodes.map nodeTag = states.map nodeTag)
    (contract : String) : groupContexts nodes contract = groupContexts states contract := by
  have htags : ∀ nodes : List Node, groupContexts nodes contract
      = ((nodes.map nodeTag).filter fun tag => tag.2.2 && (ofLex tag.1).1 = contract).map
        fun tag => tag.2.1 := by
    intro nodes
    rw [List.filter_map, List.map_map]
    rfl
  rw [htags, htags, h]

/-- All groups together are the states with `enableDAG`. -/
theorem mem_flatMap_groupContexts {i : ContextID} :
    i ∈ (dagContracts states).flatMap (groupContexts states) ↔
      ∃ n ∈ states, n.2.enableDAG = true ∧ n.2.contextID = i := by
  simp only [List.mem_flatMap, mem_dagContracts, groupContexts, List.mem_map, List.mem_filter,
    inGroup, Bool.and_eq_true, decide_eq_true_eq]
  constructor
  · rintro ⟨contract, -, n, ⟨hn, hflag, -⟩, hctx⟩
    exact ⟨n, hn, hflag, hctx⟩
  · rintro ⟨n, hn, hflag, hctx⟩
    exact ⟨_, ⟨n, ⟨hn, hflag⟩, rfl⟩, n, ⟨hn, hflag, rfl⟩, hctx⟩

namespace Execution

/-- Invariant of the sends: the loop of `DAGExecute` is run only in an execution
with `withDAG`, and has sent the groups in front of those ahead. -/
structure SendsInv (env : ExecuteEnv) (block : Block) (x : Execution) (sent : List ContextID) :
    Prop where
  pending : x.nextBlock = true → env.staticCall = false ∧ x.dag = none ∧ x.dmts = []
  without : x.dag = none → sent = [] ∧
    (x.dmts ≠ [] → env.staticCall = true ∨ (blockStates env block).2 = false)
  loop : ∀ d, x.dag = some d → env.staticCall = false ∧ ∃ taken,
    taken ++ d.todo = dagContracts (blockStates env block).1 ∧
    sent = taken.flatMap (groupContexts (blockStates env block).1)

theorem sendsInv_start (env : ExecuteEnv) (block : Block) :
    SendsInv env block (Execution.start env block) [] := by
  unfold Execution.start
  split_ifs with hstatic
  · exact ⟨by simp [startDMT], fun _ => ⟨rfl, fun _ => Or.inl hstatic⟩, by simp [startDMT]⟩
  · exact ⟨fun _ => ⟨by simpa using hstatic, rfl, rfl⟩, fun _ => ⟨rfl, by simp⟩, by simp⟩

/-- The loop goes on with nothing taken off. -/
theorem SendsInv.keep (h : SendsInv env block x sent) {d d' : DagMachine} (hd : x.dag = some d)
    (hnext : x'.nextBlock = x.nextBlock) (hd' : x'.dag = some d') (htodo : d'.todo = d.todo) :
    SendsInv env block x' (sent ++ x.sentBy x') := by
  have hnone : x.sentBy x' = [] := by simp [sentBy, hd, hd', htodo]
  refine ⟨fun hwait => ?_, fun hdag => ?_, fun k hk => ?_⟩
  · rw [hnext] at hwait
    rw [(h.pending hwait).2.1] at hd
    cases hd
  · rw [hd'] at hdag
    cases hdag
  · rw [hd'] at hk
    cases hk
    rw [hnone, List.append_nil, htodo]
    exact h.loop d hd

theorem SendsInv.step (hinv : x.Inv env block executors) (h : SendsInv env block x sent)
    (hstep : Step env block executors x x') : SendsInv env block x' (sent ++ x.sentBy x') := by
  cases hstep with
  | @nextBlock error hnext =>
      obtain ⟨hstatic, hdag, hdmts⟩ := h.pending hnext
      have hsent : sent ++ x.sentBy (x.afterNextBlock env block error) = [] := by
        rw [(h.without hdag).1]
        simp [sentBy, hdag]
      rw [hsent]
      unfold afterNextBlock
      dsimp only
      split_ifs with herr hwith hempty
      · exact ⟨by simp, fun _ => ⟨rfl, fun hne => absurd hdmts hne⟩, by simp [hdag]⟩
      · refine ⟨by simp [startDMT], by simp [startDMT], fun d hd => ⟨hstatic, [], ?_, rfl⟩⟩
        rw [← Option.some.inj hd]
        rfl
      · refine ⟨by simp, by simp, fun d hd => ⟨hstatic, [], ?_, rfl⟩⟩
        rw [← Option.some.inj hd]
        rfl
      · exact ⟨by simp [startDMT],
          fun _ => ⟨rfl, fun _ => Or.inr (Bool.not_eq_true _ ▸ hwith)⟩, by simp [startDMT, hdag]⟩
  | @dagSend d contract rest hd htodo =>
      obtain ⟨hstatic, taken, htaken, hsent⟩ := h.loop d hd
      have hgroup : x.sentBy { x with dag := some (d.send contract rest) }
          = groupContexts (blockStates env block).1 contract := by
        rw [← groupContexts_of_tags (hinv.dag d hd).2.tags]
        simp [sentBy, hd, htodo, DagMachine.send]
      refine ⟨fun hwait => ?_, by simp, fun k hk => ⟨hstatic, taken ++ [contract], ?_, ?_⟩⟩
      · rw [(h.pending hwait).2.1] at hd
        cases hd
      · rw [← Option.some.inj hk, ← htaken, htodo]
        simp [DagMachine.send]
      · rw [hgroup, hsent]
        simp
  | @dagReply d contract error responses hd hmem =>
      rcases hans : (d.receive contract error responses).answer with _ | (e | u)
      · exact h.keep hd rfl rfl (d.receive_queues contract error responses).1
      · exact h.keep hd rfl rfl (d.receive_queues contract error responses).1
      · exact h.keep hd rfl rfl (d.receive_queues contract error responses).1
  | @dmt before after m m' hdmts hm =>
      rcases Option.eq_none_or_eq_some x.dag with hdag | ⟨d, hdag⟩
      · have hsent : sent ++ x.sentBy { x with dmts := before ++ m' :: after } = sent := by
          simp [sentBy, hdag]
        rw [hsent]
        obtain ⟨hnone, hwithout⟩ := h.without hdag
        refine ⟨fun hwait => ?_, fun _ => ⟨hnone, fun _ => hwithout (by simp [hdmts])⟩, ?_⟩
        · rw [(h.pending hwait).2.2] at hdmts
          simp at hdmts
        · exact fun d hd => h.loop d hd
      · exact h.keep hdag rfl hdag rfl

theorem DagSends.inv (h : DagSends env block executors x sent) : SendsInv env block x sent := by
  induction h with
  | start => exact sendsInv_start env block
  | step hrun hstep ih => exact ih.step hrun.steps.inv hstep

/-- Who was sent when `asyncExecute` is through with the DAG path. -/
theorem DagSends.mem_iff (h : DagSends env block executors x sent) (hthrough : x.DagThrough)
    {i : Nat} (hi : i < block.size) :
    (i : ContextID) ∈ sent ↔ env.staticCall = false ∧ ∃ j ≤ i, block.dag j = true := by
  rcases hthrough with ⟨d, hd, htodo⟩ | ⟨hnone, hdmts⟩
  · obtain ⟨hstatic, taken, htaken, hsent⟩ := h.inv.loop d hd
    rw [htodo, List.append_nil] at htaken
    rw [hsent, htaken, mem_flatMap_groupContexts]
    constructor
    · rintro ⟨n, hn, hflag, hctx⟩
      obtain ⟨k, hk, hiff⟩ := enableDAG_iff hn
      obtain rfl : k = i := by simpa [hk] using hctx
      exact ⟨hstatic, hiff.mp hflag⟩
    · rintro ⟨-, hflag⟩
      have hmem : (i : ContextID) ∈ contexts (blockStates env block).1 :=
        (contexts_blockStates env block).mem_iff.mpr
          (List.mem_map.mpr ⟨i, List.mem_range.mpr hi, rfl⟩)
      obtain ⟨n, hn, hctx⟩ := List.mem_map.mp hmem
      obtain ⟨k, hk, hiff⟩ := enableDAG_iff hn
      obtain rfl : k = i := by simpa [hk] using hctx
      exact ⟨n, hn, hiff.mpr hflag, hctx⟩
  · obtain ⟨hsent, hwithout⟩ := h.inv.without hnone
    rw [hsent]
    simp only [List.not_mem_nil, false_iff]
    rintro ⟨hstatic, j, -, hflag⟩
    rcases hwithout hdmts with hstatic' | hwith
    · rw [hstatic] at hstatic'
      cases hstatic'
    · rw [(withDAG_iff env block).mpr ⟨j, hflag⟩] at hwith
      cases hwith

/-- The loop of `DAGExecute` can always send the groups ahead of it. -/
theorem DagSends.sendAll (todo : List String) : ∀ {x : Execution} {sent : List ContextID}
    {d : DagMachine}, x.dag = some d → d.todo = todo → DagSends env block executors x sent →
      ∃ x' sent', DagSends env block executors x' sent' ∧ x'.DagThrough := by
  induction todo with
  | nil => exact fun hd htodo hrun => ⟨_, _, hrun, Or.inl ⟨_, hd, htodo⟩⟩
  | cons contract rest ih =>
      intro x sent d hd htodo hrun
      exact ih rfl rfl (hrun.step (.dagSend hd htodo))

/-- Every block has a run that is through with the DAG path. -/
theorem exists_dagThrough (env : ExecuteEnv) (block : Block) (executors : Executors) :
    ∃ x sent, DagSends env block executors x sent ∧ x.DagThrough := by
  rcases hstatic : env.staticCall with _ | _
  · have hwait : (Execution.start env block).nextBlock = true := by simp [Execution.start, hstatic]
    have hrun := (@DagSends.start env block executors).step (@Step.nextBlock env block executors _ none hwait)
    rcases hwith : (blockStates env block).2 with _ | _
    · refine ⟨_, _, hrun, Or.inr ⟨?_, ?_⟩⟩
      · simp [afterNextBlock, hwith, startDMT, Execution.start, hstatic]
      · simp [afterNextBlock, hwith, startDMT]
    · have hdag : ((Execution.start env block).afterNextBlock env block none).dag
          = some (DagMachine.start (blockStates env block).1) := by
        simp only [afterNextBlock, hwith, Option.isSome_none, Bool.false_eq_true, if_false, if_true]
        split_ifs <;> rfl
      exact hrun.sendAll _ hdag rfl
  · refine ⟨_, _, .start, Or.inr ⟨?_, ?_⟩⟩
    · simp [Execution.start, hstatic, startDMT]
    · simp [Execution.start, hstatic, startDMT]

end Execution

/-- **The DAG path and the DAG attribute.**  In every run of `asyncExecute` that is
through with the DAG path, the transactions sent through `DAGExecute` are those
with the DAG attribute if and only if no transaction without it comes after one
with it; in a static call, where the path is not taken, if and only if no
transaction has it. -/
theorem dagSent_iff (h : Execution.DagSends env block executors x sent)
    (hthrough : x.DagThrough) :
    (∀ i, i < block.size → ((i : ContextID) ∈ sent ↔ block.dag i = true)) ↔
      (env.staticCall = false →
        ∀ i j, i < j → j < block.size → block.dag i = true → block.dag j = true) ∧
      (env.staticCall = true → ∀ i, i < block.size → block.dag i = false) := by
  constructor
  · refine fun hall => ⟨fun hstatic i j hij hj hflag => ?_, fun hstatic i hi => ?_⟩
    · exact (hall j hj).mp ((h.mem_iff hthrough hj).mpr ⟨hstatic, i, hij.le, hflag⟩)
    · rw [← Bool.not_eq_true, ← hall i hi, h.mem_iff hthrough hi, hstatic]
      simp
  · rintro ⟨hlater, hstatic⟩ i hi
    rw [h.mem_iff hthrough hi]
    constructor
    · rintro ⟨hdynamic, j, hji, hflag⟩
      rcases hji.lt_or_eq with hji | rfl
      · exact hlater hdynamic j i hji hi hflag
      · exact hflag
    · intro hflag
      refine ⟨?_, i, le_rfl, hflag⟩
      by_contra hcall
      rw [hstatic (by simpa using hcall) i hi] at hflag
      cases hflag

/-! ### Small blocks -/

/-- A call to `a` and a call to `b`, with the given DAG attributes. -/
def twoCalls (first second : Bool) : Block where
  number := 7
  metaData := [{ hash := 1, toAddr := "a", attributes := { dag := first } },
    { hash := 2, toAddr := "b", attributes := { dag := second } }]

theorem dagSent_iff_second_call :
    ∃ x sent, Execution.DagSends plainEnv (twoCalls false true) (.ofFun finishing plainRoot) x sent ∧
      x.DagThrough ∧ ∀ i : Nat, i < 2 → ((i : ContextID) ∈ sent ↔ (twoCalls false true).dag i = true) := by
  obtain ⟨x, sent, hrun, hthrough⟩ := Execution.exists_dagThrough plainEnv (twoCalls false true)
    (.ofFun finishing plainRoot)
  refine ⟨x, sent, hrun, hthrough, (dagSent_iff hrun hthrough).mpr ⟨fun _ i j hij hj hflag => ?_, ?_⟩⟩
  · -- the second call is the only one that has another before it
    obtain rfl : j = 1 := by
      have : (twoCalls false true).size = 2 := rfl
      omega
    rfl
  · exact fun hstatic => by cases hstatic

/-- A call without the attribute is sent through `DAGExecute` because the call
before it has it. -/
theorem plain_call_sent_through_dag :
    ∃ x sent, Execution.DagSends plainEnv (twoCalls true false) (.ofFun finishing plainRoot) x sent ∧
      x.DagThrough ∧ (1 : ContextID) ∈ sent ∧ (twoCalls true false).dag 1 = false := by
  obtain ⟨x, sent, hrun, hthrough⟩ := Execution.exists_dagThrough plainEnv (twoCalls true false)
    (.ofFun finishing plainRoot)
  exact ⟨x, sent, hrun, hthrough,
    (hrun.mem_iff hthrough (i := 1) (by decide)).mpr ⟨rfl, 0, by decide, rfl⟩, rfl⟩

end BcosScheduler
