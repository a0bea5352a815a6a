/-
BcosScheduler/SendBack.lean

A block whose DAG transactions all come back from `DAGExecute`.

`DAGExecute` has pushed the first frame of every transaction it sent, and has got
its message back as a `SEND_BACK` (`SendBackRun`).  `DMTExecute` then starts on
twins of the states of the same block without DAG attributes
(`dagNode_twin`), and the two follow each other: batch by batch they send the
same messages, and a transaction that was sent to has the same call stack and
sequence counter in both (`sendBack_transparent`).
-/
import BcosScheduler.TwinRuns
import BcosScheduler.DagAnswer

namespace BcosScheduler

/-! ### The block without DAG attributes -/

/-- The same attributes without `DAG`. -/
def TransactionAttribute.withoutDAG (attributes : TransactionAttribute) : TransactionAttribute :=
  { attributes with dag := false }

/-- The same block with no DAG attribute. -/
def Block.withoutDAG (block : Block) : Block :=
  { block with
    metaData := block.metaData.map fun metaData =>
      { metaData with attributes := metaData.attributes.withoutDAG }
    transactions := block.transactions.map fun tx =>
      { tx with attributes := tx.attributes.withoutDAG } }

variable {env : ExecuteEnv} {block : Block} {executors : Executors} {n : Node}
  {states start : List Node} {d : DagMachine} {contract : String} {rest : List String}

theorem blockMessages_withoutDAG (env : ExecuteEnv) (block : Block) :
    blockMessages env block.withoutDAG = (blockMessages env block).map fun p => (p.1, false) := by
  unfold blockMessages Block.withoutDAG
  simp only [ne_eq, List.map_eq_nil_iff]
  split_ifs
  · apply List.ext_getElem?
    intro i
    simp only [List.getElem?_mapIdx, List.getElem?_map]
    rcases block.transactions[i]? with _ | tx <;> rfl
  · apply List.ext_getElem?
    intro i
    simp only [List.getElem?_mapIdx, List.getElem?_map]
    rcases block.metaData[i]? with _ | metaData <;> rfl

/-- The state without the flag. -/
def unflag (n : Node) : Node := (n.1, n.2.flagged false)

theorem fillStates_unflagged (messages : List (ExecutionMessage × Bool)) :
    ∀ (i : Nat) (withDAG : Bool) (states : List Node),
      (fillStates i false (messages.map fun p => (p.1, false)) (states.map unflag)).1
        = (fillStates i withDAG messages states).1.map unflag := by
  induction messages with
  | nil => exact fun _ _ _ => rfl
  | cons p rest ih =>
      intro i withDAG states
      simp only [List.map_cons, fillStates, Bool.or_false]
      have hput := OrderedMap.map_emplace (fun s : ExecutiveState => s.flagged false)
        (toLex (p.1.toAddr, (i : ContextID)))
        { contextID := i, message := some p.1, enableDAG := withDAG || p.2 } states
      rw [← ih (i + 1) (withDAG || p.2)]
      exact congrArg (fun states => (fillStates (i + 1) false _ states).1) hput.symm

theorem blockStates_withoutDAG (env : ExecuteEnv) (block : Block) :
    (blockStates env block.withoutDAG).1 = (blockStates env block).1.map unflag := by
  unfold blockStates
  rw [blockMessages_withoutDAG]
  exact fillStates_unflagged (blockMessages env block) 0 false []

theorem initialContext_withoutDAG (block : Block) :
    initialContext block.withoutDAG = initialContext block := by
  unfold initialContext blockResults Block.withoutDAG
  simp only [ne_eq, List.map_eq_nil_iff, List.map_map, Function.comp_def]

/-! ### Messages sent back -/

/-- What an executor makes of a message it sends back. -/
def ExecutionMessage.sendBack (message : ExecutionMessage) : ExecutionMessage :=
  { message with type := .SEND_BACK }

/-- Runs of `asyncExecute` in which every message given to `dagExecuteTransactions`
comes back as a `SEND_BACK`; `given` are the messages of the groups sent. -/
inductive SendBackRun (env : ExecuteEnv) (block : Block) (executors : Executors) :
    Execution → (String → List (Option ExecutionMessage)) → Prop
  | start : SendBackRun env block executors (Execution.start env block) fun _ => []
  | nextBlock {x : Execution} {given : String → List (Option ExecutionMessage)}
      {error : Option Error} : SendBackRun env block executors x given → x.nextBlock = true →
      SendBackRun env block executors (x.afterNextBlock env block error) given
  | dagSend {x : Execution} {given : String → List (Option ExecutionMessage)} {d : DagMachine}
      {contract : String} {rest : List String} : SendBackRun env block executors x given →
      x.dag = some d → d.todo = contract :: rest →
      SendBackRun env block executors { x with dag := some (d.send contract rest) }
        (Function.update given contract (groupMessages d.states contract))
  | dagReply {x : Execution} {given : String → List (Option ExecutionMessage)} {d : DagMachine}
      {contract : String} {responses : List (Option ExecutionMessage)} :
      SendBackRun env block executors x given → x.dag = some d → contract ∈ d.waiting →
      responses = (given contract).map (Option.map ExecutionMessage.sendBack) →
      SendBackRun env block executors
        (Execution.afterDAG block { x with dag := some (d.receive contract none responses) }
          (d.receive contract none responses).states (d.receive contract none responses).answer)
        given
  | dmt {x : Execution} {given : String → List (Option ExecutionMessage)}
      {before after : List Machine} {m m' : Machine} : SendBackRun env block executors x given →
      x.dmts = before ++ m :: after →
      Machine.Step (env.blockEnv block) env.staticCall executors m m' →
      SendBackRun env block executors { x with dmts := before ++ m' :: after } given

/-- These are runs of `asyncExecute`. -/
theorem SendBackRun.steps {x : Execution} {given : String → List (Option ExecutionMessage)}
    (h : SendBackRun env block executors x given) :
    Execution.Steps env block executors (Execution.start env block) x := by
  induction h with
  | start => exact .refl
  | nextBlock _ hnext ih => exact ih.tail (.nextBlock hnext)
  | dagSend _ hd htodo ih => exact ih.tail (.dagSend hd htodo)
  | dagReply _ hd hmem _ ih => exact ih.tail (.dagReply hd hmem)
  | dmt _ hdmts hm ih => exact ih.tail (.dmt hdmts hm)

/-! ### DAGExecute -/

/-- The state of a transaction while it is with its executor. -/
def ExecutiveState.away (s : ExecutiveState) : ExecutiveState :=
  { s with callStack := s.currentSeq :: s.callStack
           currentSeq := s.currentSeq + 1
           message := none }

/-- The node `DAGExecute` has made of `n`, with the groups `todo` still to be sent
and the groups `waiting` without reply. -/
def dagNode (todo waiting : List String) (n : Node) : Node :=
  if n.2.enableDAG then
    if (ofLex n.1).1 ∈ todo then n
    else if (ofLex n.1).1 ∈ waiting then (n.1, n.2.away)
    else (n.1, { n.2.away with message := n.2.message.map ExecutionMessage.sendBack })
  else n

theorem nodeTag_dagNode (todo waiting : List String) (n : Node) :
    nodeTag (dagNode todo waiting n) = nodeTag n := by
  unfold dagNode
  split_ifs <;> rfl

/-- What happens to one group does not matter to the others. -/
theorem dagNode_of_not {todo todo' waiting waiting' : List String}
    (hgroup : ¬ inGroup contract n = true) (htodo : ∀ c ≠ contract, c ∈ todo ↔ c ∈ todo')
    (hwaiting : ∀ c ≠ contract, c ∈ waiting ↔ c ∈ waiting') :
    dagNode todo waiting n = dagNode todo' waiting' n := by
  unfold dagNode
  by_cases hflag : n.2.enableDAG = true
  · have hne : (ofLex n.1).1 ≠ contract := by
      rintro rfl
      exact hgroup (by simp [inGroup, hflag])
    simp only [htodo _ hne, hwaiting _ hne]
  · rw [if_neg hflag, if_neg hflag]

/-- `DAGExecute` on `start` when every group comes back. -/
structure DagBack (start : List Node) (given : String → List (Option ExecutionMessage))
    (d : DagMachine) : Prop where
  states : d.states = start.map (dagNode d.todo d.waiting)
  groups : (d.todo ++ d.waiting).Nodup
  given : ∀ contract ∈ d.waiting, given contract = groupMessages start contract

theorem dagBack_start (start : List Node) (given : String → List (Option ExecutionMessage)) :
    DagBack start given (DagMachine.start start) where
  states := by
    refine ((List.map_congr_left fun n hn => ?_).trans (List.map_id _)).symm
    unfold dagNode
    split_ifs with hflag hmem hwait
    · rfl
    · cases hwait
    · exfalso
      apply hmem
      show (ofLex n.1).1 ∈ dagContracts start
      rw [mem_dagContracts]
      exact List.mem_map.mpr ⟨n, List.mem_filter.mpr ⟨hn, hflag⟩, rfl⟩
    · rfl
  groups := by
    rw [DagMachine.start, List.append_nil]
    exact dagContracts_nodup _
  given := by simp [DagMachine.start]

theorem groupMessages_dagNode {todo waiting : List String} (hmem : contract ∈ todo) :
    groupMessages (start.map (dagNode todo waiting)) contract = groupMessages start contract := by
  induction start with
  | nil => rfl
  | cons n rest ih =>
      unfold groupMessages at ih ⊢
      rw [List.map_cons, List.filter_cons, List.filter_cons,
        inGroup_of_tag (nodeTag_dagNode todo waiting n)]
      split_ifs with hgroup
      · simp only [inGroup, Bool.and_eq_true, decide_eq_true_eq] at hgroup
        have hsame : dagNode todo waiting n = n := by simp [dagNode, hgroup.1, hgroup.2, hmem]
        rw [List.map_cons, List.map_cons, ih, hsame]
      · exact ih

theorem DagBack.send {given : String → List (Option ExecutionMessage)} (h : DagBack start given d)
    (htodo : d.todo = contract :: rest) :
    DagBack start (Function.update given contract (groupMessages d.states contract))
      (d.send contract rest) := by
  have hgroups := h.groups
  rw [htodo] at hgroups
  have hfirst := (List.nodup_cons.mp hgroups).1
  refine ⟨?_, (DagMachine.send_groups htodo).nodup_iff.mpr h.groups, fun c hc => ?_⟩
  · simp only [DagMachine.send, h.states, htodo, List.map_map]
    apply List.map_congr_left
    intro n _
    rw [Function.comp_apply]
    unfold DagMachine.pushFrame
    rw [inGroup_of_tag (nodeTag_dagNode _ _ n)]
    split_ifs with hgroup
    · simp only [inGroup, Bool.and_eq_true, decide_eq_true_eq] at hgroup
      have hsent : contract ∉ rest := fun hin => hfirst (List.mem_append_left _ hin)
      simp [dagNode, hgroup.1, hgroup.2, hsent, ExecutiveState.away]
    · refine dagNode_of_not hgroup (fun c hne => ?_) (fun c hne => ?_)
      · simp [hne]
      · simp [hne]
  · rcases List.mem_append.mp hc with hold | hnew
    · have hne : c ≠ contract := fun heq => hfirst (List.mem_append_right _ (heq ▸ hold))
      rw [Function.update_of_ne hne]
      exact h.given c hold
    · obtain rfl := List.mem_singleton.mp hnew
      rw [Function.update_self, h.states]
      exact groupMessages_dagNode (by simp [htodo])

/-- Replies in the order of the group find their states. -/
theorem storeResponses_map {f : Node → Node} {g : Node → Option ExecutionMessage}
    (hf : ∀ n, nodeTag (f n) = nodeTag n) (start : List Node) :
    DagMachine.storeResponses contract (start.map f) ((start.filter (inGroup contract)).map g)
      = start.map fun n =>
          if inGroup contract n then ((f n).1, { (f n).2 with message := g n }) else f n := by
  induction start with
  | nil => rfl
  | cons n rest ih =>
      rw [List.map_cons, List.map_cons, List.filter_cons]
      unfold DagMachine.storeResponses
      rw [inGroup_of_tag (hf n)]
      split_ifs with hgroup
      · rw [List.map_cons]
        dsimp only
        rw [ih]
      · rw [ih]

theorem DagBack.receive {given : String → List (Option ExecutionMessage)}
    (h : DagBack start given d) (hmem : contract ∈ d.waiting)
    {responses : List (Option ExecutionMessage)}
    (hresponses : responses = (given contract).map (Option.map ExecutionMessage.sendBack)) :
    DagBack start given (d.receive contract none responses) := by
  obtain ⟨htodo, hwaiting⟩ := d.receive_queues contract none responses
  obtain ⟨-, hnodup, hdisj⟩ := List.nodup_append.mp h.groups
  have hall : responses = (start.filter (inGroup contract)).map
      fun n => n.2.message.map ExecutionMessage.sendBack := by
    rw [hresponses, h.given contract hmem, groupMessages, List.map_map]
    rfl
  have htags : d.states.map nodeTag = start.map nodeTag := by
    rw [h.states, List.map_map]
    exact List.map_congr_left fun n _ => nodeTag_dagNode _ _ n
  have hlen : (d.states.filter (inGroup contract)).length = responses.length := by
    rw [hall, List.length_map]
    exact group_length_of_tags contract htags
  have hstored : (d.receive contract none responses).states
      = DagMachine.storeResponses contract d.states responses := by
    simp [DagMachine.receive, hlen]
  refine ⟨?_, ?_, fun c hc => ?_⟩
  · rw [hstored, htodo, hwaiting, h.states, hall, storeResponses_map (nodeTag_dagNode _ _)]
    apply List.map_congr_left
    intro n _
    have hleft : contract ∉ d.todo := fun hin => hdisj _ hin _ hmem rfl
    split_ifs with hgroup
    · simp only [inGroup, Bool.and_eq_true, decide_eq_true_eq] at hgroup
      simp [dagNode, hgroup.1, hgroup.2, hleft, hmem, hnodup.not_mem_erase, ExecutiveState.away]
    · exact dagNode_of_not hgroup (fun c _ => Iff.rfl) fun c hne =>
        (List.mem_erase_of_ne hne).symm
  · rw [htodo, hwaiting]
    exact h.groups.sublist ((List.Sublist.refl _).append List.erase_sublist)
  · rw [hwaiting] at hc
    exact h.given c (List.mem_of_mem_erase hc)

/-! ### The start of DMTExecute -/

/-- Who has a hash was given by it. -/
theorem restorable_blockMessages (hhash : ∀ metaData ∈ block.metaData, metaData.hash ≠ 0)
    {i : Nat} {p : ExecutionMessage × Bool} (h : (blockMessages env block)[i]? = some p) :
    Restorable p.1 := by
  obtain ⟨hseq, hkeyLocks, ⟨htype, metaData, hmem, hsame⟩ | ⟨htype, hzero⟩⟩ :=
    blockMessages_unsent h
  · have hnonzero : p.1.transactionHash ≠ 0 := by
      rw [hsame]
      exact hhash metaData hmem
    exact ⟨hseq, hkeyLocks, by rw [htype, if_pos hnonzero]⟩
  · exact ⟨hseq, hkeyLocks, by simp [htype, hzero]⟩

/-- A state of the block that was sent back, and one that was not, are twins of that
of the block without DAG attributes. -/
theorem dagNode_twin (hhash : ∀ metaData ∈ block.metaData, metaData.hash ≠ 0)
    (hn : n ∈ (blockStates env block).1) : Twin [] (dagNode [] [] n) (unflag n) := by
  have hfresh := blockStates_fresh env block n hn
  obtain ⟨i, hctx, p, hget, hmsg, hkey⟩ := hfresh.frame
  by_cases hflag : n.2.enableDAG = true
  · rw [dagNode, if_pos hflag, if_neg (by simp), if_neg (by simp)]
    have hrestorable := restorable_blockMessages hhash hget
    have htwin : Twin [] (toLex (p.1.toAddr, n.2.contextID), (n.2.flagged false).sentBack p.1 true)
        (toLex (p.1.toAddr, n.2.contextID), n.2.flagged false) :=
      @Twin.sentBack [] (n.2.flagged false) p.1 true List.not_mem_nil hfresh.callStack
        hfresh.currentSeq hmsg hrestorable
    have hback : { n.2.away with message := n.2.message.map ExecutionMessage.sendBack }
        = (n.2.flagged false).sentBack p.1 true := by
      simp [ExecutiveState.away, ExecutiveState.sentBack, ExecutiveState.flagged,
        ExecutionMessage.sendBack, hmsg, hfresh.callStack, hfresh.currentSeq, hflag]
    rw [hback, unflag, hkey, ← hctx]
    exact htwin
  · rw [dagNode, if_neg hflag]
    exact .same n.1 (n.2.flagged false) n.2.enableDAG

/-- The states `DMTExecute` starts on. -/
structure BackStates (env : ExecuteEnv) (block : Block) (states : List Node) : Prop where
  twins : List.Forall₂ (Twin []) states (blockStates env block.withoutDAG).1
  ascending : OrderedMap.Ascending states
  distinct : DistinctContexts states

/-- Nodes in place of the states of the block. -/
theorem backStates_map {f : Node → Node} (htag : ∀ n, nodeTag (f n) = nodeTag n)
    (htwin : ∀ n ∈ (blockStates env block).1, Twin [] (f n) (unflag n)) :
    BackStates env block ((blockStates env block).1.map f) where
  twins := by
    rw [blockStates_withoutDAG, List.forall₂_map_left_iff, List.forall₂_map_right_iff,
      List.forall₂_same]
    exact htwin
  ascending := by
    have hasc : OrderedMap.Ascending (blockStates env block).1 :=
      fillStates_ascending _ 0 false List.Pairwise.nil
    refine hasc.of_keys ?_
    have hkeys : Prod.fst ∘ f = Prod.fst := by
      funext n
      exact congrArg (fun tag : StateKey × ContextID × Bool => tag.1) (htag n)
    rw [List.map_map, hkeys]
  distinct := by
    refine distinct_of_tags (distinct_blockStates env block) ?_
    rw [List.map_map]
    exact List.map_congr_left fun n _ => htag n

theorem backStates_unsent (env : ExecuteEnv) (block : Block) :
    BackStates env block (blockStates env block).1 := by
  have h : BackStates env block ((blockStates env block).1.map id) :=
    backStates_map (fun _ => rfl) fun n _ => .same n.1 (n.2.flagged false) n.2.enableDAG
  rwa [List.map_id] at h

/-- Everybody is back. -/
theorem DagBack.backStates {given : String → List (Option ExecutionMessage)}
    (hhash : ∀ metaData ∈ block.metaData, metaData.hash ≠ 0)
    (h : DagBack (blockStates env block).1 given d) (hdone : d.todo = [] ∧ d.waiting = []) :
    BackStates env block d.states := by
  rw [h.states, hdone.1, hdone.2]
  exact backStates_map (nodeTag_dagNode _ _) fun n hn => dagNode_twin hhash hn

/-! ### asyncExecute -/

/-- Invariant of `asyncExecute` when every group comes back. -/
structure BackInv (env : ExecuteEnv) (block : Block) (executors : Executors) (x : Execution)
    (given : String → List (Option ExecutionMessage)) : Prop where
  dag : ∀ d, x.dag = some d → DagBack (blockStates env block).1 given d
  runs : ∀ m ∈ x.dmts, ∃ states, BackStates env block states ∧
    Machine.Steps (env.blockEnv block) env.staticCall executors
      (Machine.startBatch states (initialContext block) []) m

theorem BackInv.startDMT {x : Execution} {given : String → List (Option ExecutionMessage)}
    (h : BackInv env block executors x given) (hstates : BackStates env block states) :
    BackInv env block executors (x.startDMT block states) given := by
  refine ⟨h.dag, fun m hm => ?_⟩
  rcases List.mem_append.mp hm with hm | hm
  · exact h.runs m hm
  · rw [List.mem_singleton.mp hm]
    exact ⟨states, hstates, Relation.ReflTransGen.refl⟩

theorem backInv_start (env : ExecuteEnv) (block : Block) (executors : Executors) :
    BackInv env block executors (Execution.start env block) fun _ => [] := by
  have hempty : ∀ b, BackInv env block executors { nextBlock := b } fun _ => [] := fun b =>
    ⟨by simp, by simp⟩
  unfold Execution.start
  split_ifs
  · exact (hempty false).startDMT (backStates_unsent env block)
  · exact hempty true

theorem SendBackRun.backInv {x : Execution} {given : String → List (Option ExecutionMessage)}
    (hhash : ∀ metaData ∈ block.metaData, metaData.hash ≠ 0)
    (h : SendBackRun env block executors x given) : BackInv env block executors x given := by
  induction h with
  | start => exact backInv_start env block executors
  | @nextBlock x given error hrun hnext ih =>
      have hdag : ∀ d, x.dag ≠ some d := by simp [(hrun.steps.inv.fresh hnext).2]
      have hstarted := dagBack_start (blockStates env block).1 given
      unfold Execution.afterNextBlock
      dsimp only
      split_ifs with herr hwith hempty
      · exact ⟨fun d hd => absurd hd (hdag d), ih.runs⟩
      · refine BackInv.startDMT ⟨fun d hd => ?_, ih.runs⟩
          (hstarted.backStates hhash ⟨by simpa using hempty, rfl⟩)
        exact Option.some.inj hd ▸ hstarted
      · exact ⟨fun d hd => Option.some.inj hd ▸ hstarted, ih.runs⟩
      · exact BackInv.startDMT ⟨fun d hd => absurd hd (hdag d), ih.runs⟩
          (backStates_unsent env block)
  | @dagSend x given d contract rest _ hd htodo ih =>
      exact ⟨fun d' hd' => Option.some.inj hd' ▸ (ih.dag d hd).send htodo, ih.runs⟩
  | @dagReply x given d contract responses hrun hd hmem hresponses ih =>
      have hback := (ih.dag d hd).receive hmem hresponses
      have hreceived : BackInv env block executors
          { x with dag := some (d.receive contract none responses) } given :=
        ⟨fun d' hd' => Option.some.inj hd' ▸ hback, ih.runs⟩
      rcases hans : (d.receive contract none responses).answer with _ | (e | u)
      · exact hreceived
      · exact ⟨hreceived.dag, hreceived.runs⟩
      · have hinv := (hrun.steps.inv.dag d hd).2.receive hmem none responses
        exact hreceived.startDMT (hback.backStates hhash (hinv.complete hans))
  | @dmt x given before after m m' _ hdmts hm ih =>
      refine ⟨ih.dag, fun k hk => ?_⟩
      rcases List.mem_append.mp hk with hk | hk
      · exact ih.runs k (by simp [hdmts, hk])
      · rcases List.mem_cons.mp hk with rfl | hk
        · obtain ⟨states, hstates, hrun⟩ := ih.runs m (by simp [hdmts])
          exact ⟨states, hstates, hrun.tail hm⟩
        · exact ih.runs k (by simp [hdmts, hk])

/-! ### Transparency -/

/-- Filed alike and, if it was sent to, with the same frames. -/
structure SameFrames (sent : List ContextID) (n k : Node) : Prop where
  key : n.1 = k.1
  contextID : n.2.contextID = k.2.contextID
  callStack : n.2.contextID ∈ sent → n.2.callStack = k.2.callStack
  currentSeq : n.2.contextID ∈ sent → n.2.currentSeq = k.2.currentSeq

/-- The machines have sent the same messages, batch by batch, and got the same
replies; who was sent to has the same frames. -/
structure SameSends (m k : Machine) : Prop where
  history : m.history.map BatchLog.dispatched = k.history.map BatchLog.dispatched
  dispatched : m.log.dispatched = k.log.dispatched
  replied : m.replied = k.replied
  phase : m.phase = k.phase
  receipts : m.receipts = k.receipts
  frames : List.Forall₂ (SameFrames (m.sentContexts ++ m.log.sentTo)) m.states k.states

theorem MachineTwin.sameSends {m k : Machine} (h : MachineTwin m k) : SameSends m k where
  history := h.history
  dispatched := h.stop.log.dispatched
  replied := h.replied
  phase := h.phase
  receipts := h.receipts
  frames := h.stop.states.imp fun _ _ hab =>
    ⟨hab.key, hab.contextID, fun hsent => (hab.frames hsent).1, fun hsent => (hab.frames hsent).2⟩

/-- `DMTExecute` on states that came back follows that of the block without DAG
attributes. -/
theorem BackStates.bisimilar (h : BackStates env block states) :
    Bisimilar (Machine.Step (env.blockEnv block) env.staticCall executors)
      (Machine.Step (env.blockEnv block) env.staticCall executors) SameSends
      (Machine.startBatch states (initialContext block) []) (dmtStart env block.withoutDAG) := by
  refine ⟨Follows (env.blockEnv block) executors env.staticCall states (initialContext block),
    twins_bisimulation h.distinct, fun hfollows => hfollows.twin.sameSends, ?_,
    Steps.explained h.distinct Relation.ReflTransGen.refl⟩
  rw [dmtStart, initialContext_withoutDAG]
  exact MachineTwin.start h.twins h.ascending rfl

/-- **Sending back is transparent.**  When the transactions sent by `DAGExecute` all
come back, every `DMTExecute` started then is bisimilar to that of the same block
without DAG attributes: they send the same messages, batch by batch, and who was
sent to has the same frames. -/
theorem sendBack_transparent {x : Execution} {given : String → List (Option ExecutionMessage)}
    {m : Machine} (hhash : ∀ metaData ∈ block.metaData, metaData.hash ≠ 0)
    (hrun : SendBackRun env block executors x given) (hm : m ∈ x.dmts) :
    ∃ states,
      Machine.Steps (env.blockEnv block) env.staticCall executors
        (Machine.startBatch states (initialContext block) []) m ∧
      Bisimilar (Machine.Step (env.blockEnv block) env.staticCall executors)
        (Machine.Step (env.blockEnv block.withoutDAG) env.staticCall executors) SameSends
        (Machine.startBatch states (initialContext block) []) (dmtStart env block.withoutDAG) ∧
      (∃ k, Machine.Steps (env.blockEnv block.withoutDAG) env.staticCall executors
        (dmtStart env block.withoutDAG) k ∧ SameSends m k) ∧
      ∀ k, Machine.Steps (env.blockEnv block.withoutDAG) env.staticCall executors
        (dmtStart env block.withoutDAG) k →
        ∃ m', Machine.Steps (env.blockEnv block) env.staticCall executors
          (Machine.startBatch states (initialContext block) []) m' ∧ SameSends m' k := by
  obtain ⟨states, hstates, hsteps⟩ := (hrun.backInv hhash).runs m hm
  refine ⟨states, hsteps, hstates.bisimilar, ?_, fun k hk => ?_⟩
  · obtain ⟨k, hk, halike⟩ := hstates.bisimilar.forth_star hsteps
    exact ⟨k, hk, halike.observed⟩
  · obtain ⟨m', hm', halike⟩ := hstates.bisimilar.back_star hk
    exact ⟨m', hm', halike.observed⟩

/-! ### A deployment and two calls -/

/-- `DMTExecute` may go on in such a run. -/
theorem SendBackRun.dmts {x : Execution} {given : String → List (Option ExecutionMessage)}
    {m m' : Machine} (h : SendBackRun env block executors x given) (hone : x.dmts = [m])
    (hsteps : Machine.Steps (env.blockEnv block) env.staticCall executors m m') :
    SendBackRun env block executors { x with dmts := [m'] } given := by
  induction hsteps with
  | refl =>
      rw [← hone]
      exact h
  | @tail m₁ m₂ _ hstep ih =>
      exact @SendBackRun.dmt env block executors { x with dmts := [m₁] } given [] [] m₁ m₂ ih rfl hstep

/-- A deployment and two calls of one contract, given to `dagExecuteTransactions`
in two groups; both come back. -/
theorem sendBackRun_deployment (executors : Executors) :
    ∃ x given, SendBackRun plainEnv (dagCallsTo ["", "a", "a"]) executors x given ∧
      x.dmts = [Machine.startBatch
        ((blockStates plainEnv (dagCallsTo ["", "a", "a"])).1.map (dagNode [] []))
        (initialContext (dagCallsTo ["", "a", "a"])) []] := by
  have hnext : SendBackRun plainEnv (dagCallsTo ["", "a", "a"]) executors
      ((Execution.start plainEnv (dagCallsTo ["", "a", "a"])).afterNextBlock plainEnv
        (dagCallsTo ["", "a", "a"]) none) _ := .nextBlock .start (by decide)
  have hdeploy := hnext.dagSend (d := DagMachine.start (blockStates plainEnv
    (dagCallsTo ["", "a", "a"])).1) (by decide +kernel) (show _ = "" :: ["a"] by decide +kernel)
  have hcalls := hdeploy.dagSend rfl (show _ = "a" :: [] by decide +kernel)
  have hback := hcalls.dagReply rfl (show "a" ∈ _ by decide +kernel) rfl
  have hdone := hback.dagReply rfl (show "" ∈ _ by decide +kernel) rfl
  exact ⟨_, _, hdone, by decide +kernel⟩

/-- They are executed in two batches, the second call after the first one. -/
theorem sendBack_transparent_deployment :
    ∃ x given m, SendBackRun plainEnv (dagCallsTo ["", "a", "a"]) (.ofFun finishing plainRoot)
        x given ∧ m ∈ x.dmts ∧ m.phase = .finished (.success (some ⟨7, 9, 0⟩)) ∧
      m.history.map (fun b => b.dispatched.map Dispatch.contextID) = [[0, 1], [2], []] ∧
      ∃ k, Machine.Steps (plainEnv.blockEnv (dagCallsTo ["", "a", "a"])) false
        (.ofFun finishing plainRoot) (dmtStart plainEnv (dagCallsTo ["", "a", "a"]).withoutDAG) k ∧
        SameSends m k := by
  obtain ⟨x, given, hrun, hone⟩ := sendBackRun_deployment (.ofFun finishing plainRoot)
  have hgone := hrun.dmts hone (Machine.run_steps _ [.visit, .visit, .visit, .allSended, .reply 0,
    .reply 1, .visit, .visit, .visit, .allSended, .reply 2, .visit, .allSended, .check, .hash])
  obtain ⟨states, -, -, hsame, -⟩ := sendBack_transparent (by decide) hgone (List.mem_singleton_self _)
  exact ⟨_, given, _, hgone, List.mem_singleton_self _, by decide +kernel, by decide +kernel, hsame⟩

end BcosScheduler
