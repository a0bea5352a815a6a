/-
BcosScheduler/Dag.lean

`BlockExecutive::DAGExecute` and the order in which `asyncExecute` runs
`batchNextBlock`, `DAGExecute` and `DMTExecute`.

`DAGExecute` sends the states with `enableDAG` in groups, one for each contract.
The reply to a group carries an error or a list of messages, of any length; a
counter of outstanding messages decides when the callback is called.  Whoever
answers last starts `DMTExecute`; that this happens at most once is
`Execution.Inv`.  `batchNextBlock` answers once, as it does when its handlers are
atomic; `BcosScheduler.CollectedExecution` takes them apart.
-/
import BcosScheduler.AsyncExecute
import Mathlib.Algebra.BigOperators.Group.List.Lemmas
import Mathlib.Tactic.Ring

namespace BcosScheduler

/-! ### DAGExecute -/

/-- The state is sent with the group of `contract`. -/
def inGroup (contract : String) (n : Node) : Bool :=
  n.2.enableDAG && (ofLex n.1).1 = contract

/-- The contracts of the multimap `requests`, in ascending order. -/
def dagContracts (states : List Node) : List String :=
  ((states.filter fun n => n.2.enableDAG).foldl
    (fun requests n => OrderedMap.emplace (ofLex n.1).1 () requests) []).map Prod.fst

/-- State of `DAGExecute`: the groups not sent yet and those without reply.
`totalCount` is a `size_t` that wraps below zero; it is kept as the exact
difference here, of which only being zero is tested. -/
structure DagMachine where
  states : List Node
  todo : List String
  waiting : List String := []
  totalCount : Int
  failed : Nat := 0
  deriving DecidableEq

namespace DagMachine

/-- `DAGExecute` before its loop. -/
def start (states : List Node) : DagMachine where
  states := states
  todo := dagContracts states
  totalCount := (states.filter fun n => n.2.enableDAG).length

/-- Push the first frame of a state and move its message out. -/
def pushFrame (contract : String) (n : Node) : Node :=
  if inGroup contract n then
    (n.1, { n.2 with callStack := n.2.currentSeq :: n.2.callStack
                     currentSeq := n.2.currentSeq + 1
                     message := none })
  else n

/-- Send the group of the next contract. -/
def send (d : DagMachine) (contract : String) (rest : List String) : DagMachine :=
  { d with states := d.states.map (pushFrame contract)
           todo := rest
           waiting := d.waiting ++ [contract] }

/-- Write the replies into the states of a group, in order. -/
def storeResponses (contract : String) :
    List Node → List (Option ExecutionMessage) → List Node
  | [], _ => []
  | n :: rest, responses =>
      if inGroup contract n then
        match responses with
        | [] => n :: rest
        | response :: responses =>
            (n.1, { n.2 with message := response }) :: storeResponses contract rest responses
      else n :: storeResponses contract rest responses

/-- The reply handler of a group up to the test of the counter. -/
def receive (d : DagMachine) (contract : String) (error : Option Error)
    (responses : List (Option ExecutionMessage)) : DagMachine :=
  let d := { d with waiting := d.waiting.erase contract
                    totalCount := d.totalCount - responses.length }
  if error.isSome then { d with failed := d.failed + 1 }
  else if (d.states.filter (inGroup contract)).length ≠ responses.length then
    { d with failed := d.failed + 1 }
  else { d with states := storeResponses contract d.states responses }

/-- What the handler then hands to the callback, if it calls it. -/
def answer (d : DagMachine) : Option (Except Error Unit) :=
  if d.totalCount = 0 then
    if 0 < d.failed then
      some (.error (SchedulerError.DAGError.error "Execute dag with errors"))
    else some (.ok ())
  else none

end DagMachine

/-! ### asyncExecute -/

/-- State of `asyncExecute` after the map was filled: whether `batchNextBlock` has
still to answer, `DAGExecute` once it was started, every start of `DMTExecute`,
and the errors given to the callback by `asyncExecute` itself. -/
structure Execution where
  nextBlock : Bool
  dag : Option DagMachine := none
  dmts : List Machine := []
  errors : List Error := []
  deriving DecidableEq

namespace Execution

variable (env : ExecuteEnv) (block : Block)

/-- `DMTExecute` on the states of the map. -/
def startDMT (x : Execution) (states : List Node) : Execution :=
  { x with dmts := x.dmts ++ [Machine.startBatch states (initialContext block) []] }

/-- What `asyncExecute` does with the answer of `DAGExecute`. -/
def afterDAG (x : Execution) (states : List Node) : Option (Except Error Unit) → Execution
  | none => x
  | some (.error _) =>
      { x with errors := x.errors ++ [SchedulerError.DAGError.error "DAG execute error!"] }
  | some (.ok ()) => x.startDMT block states

/-- `asyncExecute` when the map is filled. -/
def start : Execution :=
  if env.staticCall then ({ nextBlock := false } : Execution).startDMT block (blockStates env block).1
  else { nextBlock := true }

/-- The continuation of `batchNextBlock`. -/
def afterNextBlock (x : Execution) (error : Option Error) : Execution :=
  let x := { x with nextBlock := false }
  if error.isSome then
    { x with errors := x.errors ++ [SchedulerError.NextBlockError.error "Next block error!"] }
  else if (blockStates env block).2 then
    let d := DagMachine.start (blockStates env block).1
    let x := { x with dag := some d }
    if d.todo.isEmpty then x.startDMT block d.states else x
  else x.startDMT block (blockStates env block).1

/-- One step of `asyncExecute`; executors may reply anything to a group. -/
inductive Step (executors : Executors) : Execution → Execution → Prop
  | nextBlock {x : Execution} {error : Option Error} : x.nextBlock = true →
      Step executors x (x.afterNextBlock env block error)
  | dagSend {x : Execution} {d : DagMachine} {contract : String} {rest : List String} :
      x.dag = some d → d.todo = contract :: rest →
      Step executors x { x with dag := some (d.send contract rest) }
  | dagReply {x : Execution} {d : DagMachine} {contract : String} {error : Option Error}
      {responses : List (Option ExecutionMessage)} : x.dag = some d → contract ∈ d.waiting →
      Step executors x (afterDAG block { x with dag := some (d.receive contract error responses) }
        (d.receive contract error responses).states (d.receive contract error responses).answer)
  | dmt {x : Execution} {before after : List Machine} {m m' : Machine} :
      x.dmts = before ++ m :: after →
      Machine.Step (env.blockEnv block) env.staticCall executors m m' →
      Step executors x { x with dmts := before ++ m' :: after }

/-- Any number of steps. -/
def Steps (executors : Executors) : Execution → Execution → Prop :=
  Relation.ReflTransGen (Step env block executors)

end Execution

/-! ### Keys and contexts stay -/

/-- What the grouping and the contexts of a node depend on. -/
def nodeTag (n : Node) : StateKey × ContextID × Bool := (n.1, n.2.contextID, n.2.enableDAG)

variable {env : ExecuteEnv} {block : Block} {executors : Executors} {states states' : List Node}

theorem inGroup_of_tag {contract : String} {n n' : Node} (h : nodeTag n = nodeTag n') :
    inGroup contract n = inGroup contract n' := by
  simp only [nodeTag, Prod.mk.injEq] at h
  simp [inGroup, h.1, h.2.2]

/-- Groups are told apart by their contract. -/
theorem inGroup_unique {contract contract' : String} {n : Node}
    (h : inGroup contract n = true)
    (h' : inGroup contract' n = true) : contract = contract' := by
  simp only [inGroup, Bool.and_eq_true, decide_eq_true_eq] at h h'
  exact h.2.symm.trans h'.2

theorem pushFrame_of_not {contract : String} {n : Node} (h : inGroup contract n = false) :
    DagMachine.pushFrame contract n = n := by
  simp [DagMachine.pushFrame, h]

theorem nodeTag_pushFrame (contract : String) (n : Node) :
    nodeTag (DagMachine.pushFrame contract n) = nodeTag n := by
  unfold DagMachine.pushFrame
  split_ifs <;> rfl

theorem nodeTag_storeResponses (contract : String) (states : List Node) :
    ∀ responses, (DagMachine.storeResponses contract states responses).map nodeTag
      = states.map nodeTag := by
  induction states with
  | nil => exact fun _ => rfl
  | cons n rest ih =>
      intro responses
      unfold DagMachine.storeResponses
      split_ifs
      · rcases responses with _ | ⟨response, responses⟩
        · rfl
        · simp only [List.map_cons, ih]
          rfl
      · simp only [List.map_cons, ih]

theorem DagMachine.receive_tags (d : DagMachine) (contract : String) (error : Option Error)
    (responses : List (Option ExecutionMessage)) :
    (d.receive contract error responses).states.map nodeTag = d.states.map nodeTag := by
  unfold DagMachine.receive
  dsimp only
  split_ifs
  · rfl
  · rfl
  · exact nodeTag_storeResponses contract d.states responses

theorem DagMachine.receive_queues (d : DagMachine) (contract : String) (error : Option Error)
    (responses : List (Option ExecutionMessage)) :
    (d.receive contract error responses).todo = d.todo ∧
      (d.receive contract error responses).waiting = d.waiting.erase contract := by
  unfold DagMachine.receive
  dsimp only
  split_ifs <;> exact ⟨rfl, rfl⟩

/-- Groups have the size they had. -/
theorem group_length_of_tags (contract : String) :
    ∀ {states states' : List Node}, states.map nodeTag = states'.map nodeTag →
      (states.filter (inGroup contract)).length = (states'.filter (inGroup contract)).length := by
  intro states
  induction states with
  | nil =>
      intro states' h
      rw [List.map_nil, eq_comm, List.map_eq_nil_iff] at h
      rw [h]
  | cons n rest ih =>
      intro states' h
      rcases states' with _ | ⟨n', rest'⟩
      · cases h
      · simp only [List.map_cons, List.cons.injEq] at h
        simp only [List.filter_cons, inGroup_of_tag h.1]
        split_ifs
        · simp [ih h.2]
        · exact ih h.2

theorem contexts_of_tags (h : states.map nodeTag = states'.map nodeTag) :
    contexts states = contexts states' := by
  have := congrArg (List.map fun tag : StateKey × ContextID × Bool => tag.2.1) h
  simpa [contexts, nodeTag, Function.comp_def] using this

theorem distinct_of_tags (hd : DistinctContexts states')
    (h : states.map nodeTag = states'.map nodeTag) : DistinctContexts states where
  keyed := by
    intro n hn
    have hmem : nodeTag n ∈ states'.map nodeTag := h ▸ List.mem_map.mpr ⟨n, hn, rfl⟩
    obtain ⟨n', hn', htag⟩ := List.mem_map.mp hmem
    simp only [nodeTag, Prod.mk.injEq] at htag
    rw [← htag.1, ← htag.2.1]
    exact hd.keyed n' hn'
  nodup := by
    rw [contexts_of_tags h]
    exact hd.nodup

/-! ### DMTExecute is started once -/

/-- The number of states in the group of a contract. -/
def groupSize (states : List Node) (contract : String) : Nat :=
  (states.filter (inGroup contract)).length

/-- Invariant of `DAGExecute` on the states `start`: as long as nothing has
failed, the counter counts the messages of the groups without reply. -/
structure DagMachine.Inv (start : List Node) (d : DagMachine) : Prop where
  tags : d.states.map nodeTag = start.map nodeTag
  nonempty : ∀ contract ∈ d.todo ++ d.waiting, 0 < groupSize start contract
  count : d.failed = 0 → d.totalCount = ((d.todo ++ d.waiting).map (groupSize start)).sum

theorem dagContracts_nodup (states : List Node) : (dagContracts states).Nodup := by
  have hnil : OrderedMap.Ascending ([] : List (String × Unit)) := List.Pairwise.nil
  have h := hnil.foldl_emplace (fun n : Node => (ofLex n.1).1) (fun _ => ())
    (states.filter fun n => n.2.enableDAG)
  exact List.pairwise_map.mpr (h.imp fun hlt => hlt.ne)

theorem groupSize_eq_count (states : List Node) (contract : String) :
    groupSize states contract
      = ((states.filter fun n => n.2.enableDAG).map fun n => (ofLex n.1).1).count contract := by
  rw [groupSize, List.count, List.countP_map, List.countP_eq_length_filter, List.filter_filter]
  congr 1
  apply List.filter_congr
  intro n _
  simp [inGroup, Bool.and_comm, beq_eq_decide]

theorem mem_dagContracts {states : List Node} {contract : String} :
    contract ∈ dagContracts states ↔
      contract ∈ (states.filter fun n => n.2.enableDAG).map fun n => (ofLex n.1).1 := by
  rw [dagContracts, OrderedMap.mem_keys_foldl_emplace (fun n : Node => (ofLex n.1).1) fun _ => ()]
  simp

theorem DagMachine.inv_start (states : List Node) : (DagMachine.start states).Inv states where
  tags := rfl
  nonempty := by
    intro contract hmem
    simp only [DagMachine.start, List.append_nil, mem_dagContracts] at hmem
    rw [groupSize_eq_count]
    exact List.count_pos_iff.mpr hmem
  count := by
    intro _
    -- the groups partition the states with `enableDAG`
    have hperm : (dagContracts states).Perm
        ((states.filter fun n => n.2.enableDAG).map fun n => (ofLex n.1).1).dedup :=
      (List.perm_ext_iff_of_nodup (dagContracts_nodup states) (List.nodup_dedup _)).mpr fun a => by
        rw [mem_dagContracts, List.mem_dedup]
    have hsum := List.sum_map_count_dedup_eq_length
      ((states.filter fun n => n.2.enableDAG).map fun n => (ofLex n.1).1)
    rw [List.length_map, ← (hperm.map _).sum_eq] at hsum
    simp only [DagMachine.start, List.append_nil]
    rw [← hsum, funext (groupSize_eq_count states)]

/-- A group that is sent stays without reply. -/
theorem DagMachine.send_groups {d : DagMachine} {contract : String} {rest : List String}
    (htodo : d.todo = contract :: rest) :
    ((d.send contract rest).todo ++ (d.send contract rest).waiting).Perm (d.todo ++ d.waiting) := by
  show (rest ++ (d.waiting ++ [contract])).Perm _
  rw [htodo, ← List.append_assoc]
  exact List.perm_append_comm

theorem DagMachine.Inv.send {start : List Node} {d : DagMachine} (h : d.Inv start)
    {contract : String} {rest : List String} (htodo : d.todo = contract :: rest) :
    (d.send contract rest).Inv start := by
  have hperm := DagMachine.send_groups htodo
  refine ⟨?_, fun c hc => h.nonempty c (hperm.mem_iff.mp hc), fun hf => ?_⟩
  · rw [← h.tags]
    simp only [DagMachine.send, List.map_map]
    exact List.map_congr_left fun n _ => nodeTag_pushFrame contract n
  · rw [(hperm.map _).sum_eq]
    exact h.count hf

theorem DagMachine.Inv.receive {start : List Node} {d : DagMachine} (h : d.Inv start)
    {contract : String} (hmem : contract ∈ d.waiting) (error : Option Error)
    (responses : List (Option ExecutionMessage)) :
    (d.receive contract error responses).Inv start := by
  obtain ⟨htodo, hwaiting⟩ := d.receive_queues contract error responses
  refine ⟨(d.receive_tags contract error responses).trans h.tags, ?_, ?_⟩
  · rw [hwaiting, htodo]
    intro c hc
    apply h.nonempty c
    rcases List.mem_append.mp hc with hc | hc
    · exact List.mem_append_left _ hc
    · exact List.mem_append_right _ (List.mem_of_mem_erase hc)
  · rw [hwaiting, htodo]
    unfold DagMachine.receive
    dsimp only
    split_ifs with herr hsize
    · simp
    · simp
    · intro hf
      -- the reply has one message for each state of its group, so the counter drops by that
      have hlen : responses.length = groupSize start contract := by
        rw [← not_ne_iff.mp hsize]
        exact group_length_of_tags contract h.tags
      have hsum : ((d.todo ++ d.waiting).map (groupSize start)).sum
          = groupSize start contract + ((d.todo ++ d.waiting.erase contract).map
            (groupSize start)).sum := by
        have hperm : (d.todo ++ d.waiting).Perm
            (contract :: (d.todo ++ d.waiting.erase contract)) :=
          ((List.perm_cons_erase hmem).append_left d.todo).trans List.perm_middle
        rw [(hperm.map _).sum_eq, List.map_cons, List.sum_cons]
      show d.totalCount - responses.length = _
      rw [h.count hf, hsum, hlen]
      push_cast
      ring

/-- When the counter reaches zero without a failure, every group has replied. -/
theorem DagMachine.Inv.complete {start : List Node} {d : DagMachine} (h : d.Inv start)
    (hans : d.answer = some (.ok ())) : d.todo = [] ∧ d.waiting = [] := by
  unfold DagMachine.answer at hans
  split_ifs at hans with hzero hfailed
  · cases hans
  have hsum := h.count (by omega)
  rw [hzero] at hsum
  have hnil : d.todo ++ d.waiting = [] := by
    rcases hgroups : d.todo ++ d.waiting with _ | ⟨contract, rest⟩
    · rfl
    · -- a group without reply would still be counted
      have hpos := h.nonempty contract (by simp [hgroups])
      rw [hgroups, List.map_cons, List.sum_cons] at hsum
      omega
  exact List.append_eq_nil_iff.mp hnil

namespace Execution

/-- Invariant of `asyncExecute`. -/
structure Inv (env : ExecuteEnv) (block : Block) (executors : Executors) (x : Execution) :
    Prop where
  dag : ∀ d, x.dag = some d → x.nextBlock = false ∧ d.Inv (blockStates env block).1
  /-- Every start of `DMTExecute` was on the filled map, up to frames and messages. -/
  runs : ∀ m ∈ x.dmts, ∃ states, states.map nodeTag = (blockStates env block).1.map nodeTag ∧
    Machine.Steps (env.blockEnv block) env.staticCall executors
      (Machine.startBatch states (initialContext block) []) m
  /-- After the first start nothing is left that could start it again. -/
  once : x.dmts = [] ∨ (∃ m, x.dmts = [m]) ∧ x.nextBlock = false ∧
    ∀ d, x.dag = some d → d.todo = [] ∧ d.waiting = []

/-- Nothing was started before `batchNextBlock` has answered. -/
theorem Inv.fresh {x : Execution} (h : x.Inv env block executors) (hnext : x.nextBlock = true) :
    x.dmts = [] ∧ x.dag = none := by
  constructor
  · rcases h.once with hnone | ⟨-, hfalse, -⟩
    · exact hnone
    · rw [hnext] at hfalse
      cases hfalse
  · rcases hd : x.dag with _ | d
    · rfl
    · have hfalse := (h.dag d hd).1
      rw [hnext] at hfalse
      cases hfalse

/-- While a group is without reply, `DMTExecute` was not started. -/
theorem Inv.dmts_nil {x : Execution} (h : x.Inv env block executors) {d : DagMachine}
    (hd : x.dag = some d) (hopen : d.todo ++ d.waiting ≠ []) : x.dmts = [] := by
  rcases h.once with hnone | ⟨-, -, hdone⟩
  · exact hnone
  · exact absurd (List.append_eq_nil_iff.mpr (hdone d hd)) hopen

/-- The only start is the one that makes a step. -/
theorem Inv.only {x : Execution} (h : x.Inv env block executors) {before after : List Machine}
    {m : Machine} (hdmts : x.dmts = before ++ m :: after) : before = [] ∧ after = [] := by
  rcases h.once with hnone | ⟨⟨k, hone⟩, -⟩
  · rw [hdmts] at hnone
    simp at hnone
  · rw [hdmts] at hone
    have hlen := congrArg List.length hone
    simp only [List.length_append, List.length_cons, List.length_nil] at hlen
    exact ⟨List.eq_nil_of_length_eq_zero (by omega), List.eq_nil_of_length_eq_zero (by omega)⟩

theorem Inv.startDMT {x : Execution} (h : x.Inv env block executors) (hnone : x.dmts = [])
    (hnext : x.nextBlock = false) (hdag : ∀ d, x.dag = some d → d.todo = [] ∧ d.waiting = [])
    {states : List Node} (htags : states.map nodeTag = (blockStates env block).1.map nodeTag) :
    (x.startDMT block states).Inv env block executors := by
  refine ⟨h.dag, fun m hm => ?_, Or.inr ⟨⟨_, by simp only [Execution.startDMT, hnone]; rfl⟩,
    hnext, hdag⟩⟩
  simp only [Execution.startDMT, hnone, List.nil_append, List.mem_singleton] at hm
  rw [hm]
  exact ⟨states, htags, Relation.ReflTransGen.refl⟩

theorem inv_start (env : ExecuteEnv) (block : Block) (executors : Executors) :
    (Execution.start env block).Inv env block executors := by
  have hempty : ∀ b, Inv env block executors { nextBlock := b } := fun b =>
    ⟨by simp, by simp, Or.inl rfl⟩
  unfold Execution.start
  split_ifs
  · exact (hempty false).startDMT rfl rfl (by simp) rfl
  · exact hempty true

theorem Inv.step {x x' : Execution} (h : x.Inv env block executors)
    (hstep : Step env block executors x x') : x'.Inv env block executors := by
  cases hstep with
  | @nextBlock error hnext =>
      obtain ⟨hnone, hnodag⟩ := h.fresh hnext
      have hdag : ∀ d, x.dag ≠ some d := by simp [hnodag]
      have hwaited : Inv env block executors { x with nextBlock := false } :=
        ⟨fun d hd => absurd hd (hdag d), h.runs, Or.inl hnone⟩
      unfold Execution.afterNextBlock
      dsimp only
      split_ifs with herr hwith hempty
      · exact ⟨hwaited.dag, hwaited.runs, hwaited.once⟩
      · have hinv := DagMachine.inv_start (blockStates env block).1
        have hstarted : Inv env block executors
            { x with nextBlock := false
                     dag := some (DagMachine.start (blockStates env block).1) } :=
          ⟨fun d hd => ⟨rfl, Option.some.inj hd ▸ hinv⟩, h.runs, Or.inl hnone⟩
        refine hstarted.startDMT hnone rfl (fun d hd => ?_) hinv.tags
        rw [← Option.some.inj hd]
        exact ⟨by simpa using hempty, rfl⟩
      · exact ⟨fun d hd => ⟨rfl, Option.some.inj hd ▸ DagMachine.inv_start _⟩, h.runs,
          Or.inl hnone⟩
      · exact hwaited.startDMT hnone rfl (fun d hd => absurd hd (hdag d)) rfl
  | @dagSend d contract rest hd htodo =>
      refine ⟨fun d' hd' => ?_, h.runs, ?_⟩
      · rw [← Option.some.inj hd']
        exact ⟨(h.dag d hd).1, (h.dag d hd).2.send htodo⟩
      · exact Or.inl (h.dmts_nil hd (by simp [htodo]))
  | @dagReply d contract error responses hd hmem =>
      have hnone := h.dmts_nil hd (List.ne_nil_of_mem (List.mem_append_right _ hmem))
      have hinv := (h.dag d hd).2.receive hmem error responses
      have hreceived : Inv env block executors
          { x with dag := some (d.receive contract error responses) } :=
        ⟨fun d' hd' => ⟨(h.dag d hd).1, Option.some.inj hd' ▸ hinv⟩, h.runs, Or.inl hnone⟩
      rcases hans : (d.receive contract error responses).answer with _ | (e | u)
      · exact hreceived
      · exact ⟨hreceived.dag, hreceived.runs, Or.inl hnone⟩
      · refine hreceived.startDMT hnone (h.dag d hd).1 (fun d' hd' => ?_) hinv.tags
        rw [← Option.some.inj hd']
        exact hinv.complete hans
  | @dmt before after m m' hdmts hm =>
      refine ⟨h.dag, fun k hk => ?_, ?_⟩
      · simp only [List.mem_append, List.mem_cons] at hk
        rcases hk with hk | rfl | hk
        · exact h.runs k (by simp [hdmts, hk])
        · obtain ⟨states, htags, hrun⟩ := h.runs m (by simp [hdmts])
          exact ⟨states, htags, hrun.tail hm⟩
        · exact h.runs k (by simp [hdmts, hk])
      · obtain ⟨rfl, rfl⟩ := h.only hdmts
        rcases h.once with hnone | ⟨-, hrest⟩
        · rw [hdmts] at hnone
          cases hnone
        · exact Or.inr ⟨⟨m', rfl⟩, hrest⟩

theorem Steps.inv {x : Execution} (h : Steps env block executors (Execution.start env block) x) :
    x.Inv env block executors := by
  induction h with
  | refl => exact inv_start env block executors
  | tail _ hstep ih => exact ih.step hstep

/-- A step of `DMTExecute` is one of `asyncExecute`, so are many. -/
theorem steps_dmt {x : Execution} {m m' : Machine}
    (hm : x.dmts = [m])
    (h : Machine.Steps (env.blockEnv block) env.staticCall executors m m') :
    Execution.Steps env block executors x { x with dmts := [m'] } := by
  induction h with
  | refl =>
      rw [← hm]
      exact Relation.ReflTransGen.refl
  | tail _ hstep ih =>
      exact ih.tail (@Execution.Step.dmt env block executors _ [] [] _ _ rfl hstep)

/-- A block without DAG transactions goes straight to `DMTExecute`. -/
theorem afterNextBlock_start (hstatic : env.staticCall = false)
    (hdag : (blockStates env block).2 = false) :
    Execution.start env block = { nextBlock := true } ∧
      (Execution.start env block).afterNextBlock env block none
        = { nextBlock := false, dmts := [dmtStart env block] } := by
  have hstart : Execution.start env block = { nextBlock := true } := by
    simp [Execution.start, hstatic]
  refine ⟨hstart, ?_⟩
  simp [afterNextBlock, hstart, hdag, startDMT, dmtStart]

theorem steps_dmtStart (hstatic : env.staticCall = false)
    (hdag : (blockStates env block).2 = false) :
    Execution.Steps env block executors (Execution.start env block)
      { nextBlock := false, dmts := [dmtStart env block] } := by
  obtain ⟨hstart, hafter⟩ := afterNextBlock_start hstatic hdag
  rw [← hafter]
  apply Relation.ReflTransGen.single
  apply Step.nextBlock
  rw [hstart]

/-! ### What every DMTExecute keeps -/

section Keeps

variable {P : Machine → Prop} {Q : ExecutiveState → Prop} {x x' : Execution}

theorem startDMT_dmts (h : ∀ m ∈ x.dmts, P m)
    (hstart : ∀ states, (∀ n ∈ states, Q n.2) →
      P (Machine.startBatch states (initialContext block) []))
    {states : List Node} (hstates : ∀ n ∈ states, Q n.2) :
    ∀ m ∈ (x.startDMT block states).dmts, P m := by
  intro m hm
  rcases List.mem_append.mp hm with hm | hm
  · exact h m hm
  · rw [List.mem_singleton.mp hm]
    exact hstart states hstates

/-- If `DMTExecute` starts well on states with `Q`, the states of the block and
those that come back from `DAGExecute` have `Q`, and its steps keep `P`, then a
step of `asyncExecute` does. -/
theorem Step.dmts
    (hstart : ∀ states, (∀ n ∈ states, Q n.2) →
      P (Machine.startBatch states (initialContext block) []))
    (hblock : ∀ n ∈ (blockStates env block).1, Q n.2)
    (hdag : ∀ d, x'.dag = some d → ∀ n ∈ d.states, Q n.2)
    (hdmt : ∀ before after m m', x.dmts = before ++ m :: after → x'.dmts = before ++ m' :: after →
      Machine.Step (env.blockEnv block) env.staticCall executors m m' → P m → P m')
    (h : ∀ m ∈ x.dmts, P m) (hstep : Step env block executors x x') : ∀ m ∈ x'.dmts, P m := by
  cases hstep with
  | @nextBlock error hnext =>
      unfold Execution.afterNextBlock
      dsimp only
      split_ifs
      · exact h
      · exact startDMT_dmts h hstart hblock
      · exact h
      · exact startDMT_dmts h hstart hblock
  | dagSend _ _ => exact h
  | @dagReply d contract error responses hd hmem =>
      rcases hans : (d.receive contract error responses).answer with _ | (e | u)
      · exact h
      · exact h
      · rw [hans] at hdag
        exact startDMT_dmts h hstart (hdag _ rfl)
  | @dmt before after m m' hdmts hm =>
      intro k hk
      rcases List.mem_append.mp hk with hk | hk
      · exact h k (by simp [hdmts, hk])
      · rcases List.mem_cons.mp hk with rfl | hk
        · exact hdmt _ _ _ _ hdmts rfl hm (h m (by simp [hdmts]))
        · exact h k (by simp [hdmts, hk])

theorem start_dmts
    (hstart : ∀ states, (∀ n ∈ states, Q n.2) →
      P (Machine.startBatch states (initialContext block) []))
    (hblock : ∀ n ∈ (blockStates env block).1, Q n.2) :
    ∀ m ∈ (Execution.start env block).dmts, P m := by
  unfold Execution.start
  split_ifs
  · exact startDMT_dmts (by simp) hstart hblock
  · simp

end Keeps

end Execution

end BcosScheduler
