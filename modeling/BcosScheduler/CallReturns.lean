/-
BcosScheduler/CallReturns.lean

Calls return to their callers, in every run of `asyncExecute`.

`DAGExecute` pushes the first frame of the states of a group and hands out their
messages as they are, with sequence number 0; a group not sent yet is fresh, a
group without reply has the stack [0] (`DagCalls`).  A group is one turn after
another, each of another transaction (`sendGroup`).  From the states that come
back `DMTExecute` goes on with the invariant of `BcosScheduler.CallStack`.
-/
import BcosScheduler.CallStack

namespace BcosScheduler

open CallTree

variable {env : ExecuteEnv} {block : Block} {executors : Executors} {turns : List Turn}
  {x x' : Execution} {d : DagMachine} {contract : String} {n : Node}

/-! ### DAGExecute -/

/-- A state whose first frame is not opened yet. -/
structure Unopened (state : ExecutiveState) : Prop where
  callStack : state.callStack = []
  currentSeq : state.currentSeq = 0
  message : ∃ message, state.message = some message ∧ message.requests ∧ message.seq = 0

/-- Invariant of `DAGExecute`. -/
structure DagCalls (turns : List Turn) (d : DagMachine) : Prop where
  states : ∀ n ∈ d.states, FrameOk turns n.2
  unsent : ∀ contract ∈ d.todo, ∀ n ∈ d.states, inGroup contract n = true → Unopened n.2
  waiting : ∀ contract ∈ d.waiting, ∀ n ∈ d.states, inGroup contract n = true →
    n.2.callStack = [0]
  groups : (d.todo ++ d.waiting).Nodup

theorem FreshState.unopened {env : ExecuteEnv} {block : Block}
    (h : FreshState (blockMessages env block) n) : Unopened n.2 := by
  obtain ⟨i, -, p, hget, hmsg, -⟩ := h.frame
  exact ⟨h.callStack, h.currentSeq, p.1, hmsg, (blockMessages_get hget).2,
    (blockMessages_unsent hget).1⟩

theorem Unopened.frameOk {state : ExecutiveState} (h : Unopened state) : FrameOk [] state := by
  obtain ⟨message, hmsg, hreq, -⟩ := h.message
  refine ⟨?_, ?_, fun m hm => Or.inl ⟨h.callStack, ?_⟩⟩
  · rw [h.callStack]
    exact Frames.fresh (by simp [openings])
  · rw [h.callStack, h.currentSeq]
    rfl
  · obtain rfl := Option.some.inj (hmsg.symm.trans hm)
    exact hreq

theorem blockStates_unopened (env : ExecuteEnv) (block : Block) :
    ∀ n ∈ (blockStates env block).1, Unopened n.2 :=
  fun n hn => (blockStates_fresh env block n hn).unopened

theorem dagCalls_start (env : ExecuteEnv) (block : Block) :
    DagCalls [] (DagMachine.start (blockStates env block).1) where
  states := fun n hn => (blockStates_unopened env block n hn).frameOk
  unsent := fun _ _ n hn _ => blockStates_unopened env block n hn
  waiting := by simp [DagMachine.start]
  groups := by
    rw [DagMachine.start, List.append_nil]
    exact dagContracts_nodup _

/-- The turns of the states of a group. -/
def groupTurns (contract : String) (nodes : List Node) : List Turn :=
  (nodes.filter (inGroup contract)).filterMap (dagTurn contract)

/-- The turn of a state of a group. -/
theorem FrameOk.dagTurn (h : FrameOk turns n.2) (hgroup : inGroup contract n = true)
    (hnew : Unopened n.2) :
    ∃ t, dagTurn contract n = some t ∧ t.contextID = n.2.contextID ∧
      t.after = (DagMachine.pushFrame contract n).2 ∧ TurnKeeps turns t := by
  obtain ⟨message, hmsg, hreq, hseq⟩ := hnew.message
  have hpush : (DagMachine.pushFrame contract n).2
      = { n.2 with callStack := n.2.currentSeq :: n.2.callStack
                   currentSeq := n.2.currentSeq + 1
                   message := none } := by
    simp [DagMachine.pushFrame, hgroup]
  refine ⟨⟨.dag message, n.2, (DagMachine.pushFrame contract n).2⟩, by simp [BcosScheduler.dagTurn, hmsg],
    rfl, rfl, ?_⟩
  rw [hpush]
  exact h.push hmsg hreq rfl (hseq.trans hnew.currentSeq.symm)

/-- A group is sent: one turn after another. -/
theorem sendGroup (contract : String) : ∀ (nodes : List Node) {turns : List Turn},
    TurnsOk turns → (contexts nodes).Nodup → (∀ n ∈ nodes, FrameOk turns n.2) →
    (∀ n ∈ nodes, inGroup contract n = true → Unopened n.2) →
    TurnsOk (turns ++ groupTurns contract nodes) ∧
      (∀ n ∈ nodes, FrameOk (turns ++ groupTurns contract nodes)
        (DagMachine.pushFrame contract n).2) ∧
      ∀ state, FrameOk turns state → state.contextID ∉ contexts nodes →
        FrameOk (turns ++ groupTurns contract nodes) state := by
  intro nodes
  induction nodes with
  | nil =>
      intro turns hok _ _ _
      have hnone : groupTurns contract [] = [] := rfl
      rw [hnone, List.append_nil]
      exact ⟨hok, by simp, fun state hstate _ => hstate⟩
  | cons n rest ih =>
      intro turns hok hnodup hstates hunsent
      obtain ⟨hnot, hrest⟩ := List.nodup_cons.mp hnodup
      rcases hgroup : inGroup contract n with _ | _
      · have hturns : groupTurns contract (n :: rest) = groupTurns contract rest := by
          simp [groupTurns, hgroup]
        have hpush : DagMachine.pushFrame contract n = n := by simp [DagMachine.pushFrame, hgroup]
        obtain ⟨hok', hsent, hothers⟩ := ih hok hrest (fun k hk => hstates k (by simp [hk]))
          fun k hk => hunsent k (by simp [hk])
        rw [hturns]
        refine ⟨hok', fun k hk => ?_, fun state hstate hctx => ?_⟩
        · rcases List.mem_cons.mp hk with rfl | hk
          · rw [hpush]
            exact hothers _ (hstates k (by simp)) hnot
          · exact hsent k hk
        · exact hothers state hstate fun hmem => hctx (List.mem_cons_of_mem _ hmem)
      · obtain ⟨t, hturn, htctx, hafter, hkeeps⟩ :=
          (hstates n (by simp)).dagTurn hgroup (hunsent n (by simp) hgroup)
        have hturns : groupTurns contract (n :: rest) = t :: groupTurns contract rest := by
          simp [groupTurns, hgroup, hturn]
        have hsplit : turns ++ groupTurns contract (n :: rest)
            = (turns ++ [t]) ++ groupTurns contract rest := by
          rw [hturns]
          simp
        have hahead : ∀ k ∈ rest, FrameOk (turns ++ [t]) k.2 := by
          intro k hk
          refine (hstates k (by simp [hk])).other fun heq => hnot ?_
          exact List.mem_map.mpr ⟨k, hk, by rw [← heq, htctx]⟩
        obtain ⟨hok', hsent, hothers⟩ := ih (hok.concat hkeeps.ok hkeeps.opens) hrest hahead
          fun k hk => hunsent k (by simp [hk])
        rw [hsplit]
        refine ⟨hok', fun k hk => ?_, fun state hstate hctx => ?_⟩
        · rcases List.mem_cons.mp hk with rfl | hk
          · have hpushed := hkeeps.after
            rw [hafter] at hpushed
            refine hothers _ hpushed ?_
            have htag := nodeTag_pushFrame contract k
            simp only [nodeTag, Prod.mk.injEq] at htag
            rw [htag.2.1]
            exact hnot
          · exact hsent k hk
        · refine hothers state (hstate.other fun heq => hctx ?_)
            fun hmem => hctx (List.mem_cons_of_mem _ hmem)
          rw [← heq, htctx]
          exact List.mem_cons_self ..

theorem DagMachine.turns_send {rest : List String} (htodo : d.todo = contract :: rest) :
    d.turns (d.send contract rest) = groupTurns contract d.states := by
  simp [DagMachine.turns, DagMachine.send, htodo, groupTurns]

theorem DagMachine.turns_of_todo {d' : DagMachine} (h : d'.todo = d.todo) : d.turns d' = [] := by
  simp [DagMachine.turns, h]

theorem DagCalls.send (h : DagCalls turns d) (hok : TurnsOk turns)
    (hd : (contexts d.states).Nodup) {rest : List String} (htodo : d.todo = contract :: rest) :
    DagCalls (turns ++ d.turns (d.send contract rest)) (d.send contract rest) ∧
      TurnsOk (turns ++ d.turns (d.send contract rest)) := by
  obtain ⟨hok', hsent, -⟩ := sendGroup contract d.states hok hd h.states
    (h.unsent contract (by simp [htodo]))
  have hgroups := h.groups
  rw [htodo] at hgroups
  have hfirst : ∀ c ∈ rest ++ d.waiting, c ≠ contract := by
    rintro c hc rfl
    exact (List.nodup_cons.mp hgroups).1 hc
  -- a node of another group is as it was
  have hother : ∀ c ∈ rest ++ d.waiting, ∀ n ∈ d.states,
      inGroup c (DagMachine.pushFrame contract n) = true →
      inGroup c n = true ∧ DagMachine.pushFrame contract n = n := by
    intro c hc n _ hgroup
    rw [inGroup_of_tag (nodeTag_pushFrame contract n)] at hgroup
    refine ⟨hgroup, pushFrame_of_not ?_⟩
    by_contra hthis
    exact hfirst c hc (inGroup_unique hgroup (by simpa using hthis))
  rw [DagMachine.turns_send htodo]
  refine ⟨⟨?_, ?_, ?_, ?_⟩, hok'⟩
  · intro k hk
    obtain ⟨n, hn, rfl⟩ := List.mem_map.mp hk
    exact hsent n hn
  · intro c hc k hk hgroup
    obtain ⟨n, hn, rfl⟩ := List.mem_map.mp hk
    obtain ⟨hgroup', hsame⟩ := hother c (List.mem_append_left _ hc) n hn hgroup
    rw [hsame]
    exact h.unsent c (by rw [htodo]; exact List.mem_cons_of_mem _ hc) n hn hgroup'
  · intro c hc k hk hgroup
    obtain ⟨n, hn, rfl⟩ := List.mem_map.mp hk
    rcases List.mem_append.mp hc with hc | hc
    · obtain ⟨hgroup', hsame⟩ := hother c (List.mem_append_right _ hc) n hn hgroup
      rw [hsame]
      exact h.waiting c hc n hn hgroup'
    · rw [List.mem_singleton.mp hc, inGroup_of_tag (nodeTag_pushFrame contract n)] at hgroup
      have hnew := h.unsent contract (by simp [htodo]) n hn hgroup
      simp [DagMachine.pushFrame, hgroup, hnew.callStack, hnew.currentSeq]
  · exact (DagMachine.send_groups htodo).nodup_iff.mpr h.groups

/-- What a reply to a group writes. -/
theorem mem_storeResponses {k : Node} : ∀ {nodes : List Node}
    {responses : List (Option ExecutionMessage)},
    k ∈ DagMachine.storeResponses contract nodes responses → ∃ n ∈ nodes, k = n ∨
      inGroup contract n = true ∧ ∃ response, k = (n.1, { n.2 with message := response }) := by
  intro nodes
  induction nodes with
  | nil =>
      intro responses h
      cases h
  | cons n rest ih =>
      have hrest : ∀ {responses}, k ∈ DagMachine.storeResponses contract rest responses →
          ∃ n' ∈ n :: rest, k = n' ∨ inGroup contract n' = true ∧
            ∃ response, k = (n'.1, { n'.2 with message := response }) := by
        intro responses hk
        obtain ⟨n', hn', hcases⟩ := ih hk
        exact ⟨n', List.mem_cons_of_mem _ hn', hcases⟩
      intro responses h
      unfold DagMachine.storeResponses at h
      split_ifs at h with hgroup
      · rcases responses with _ | ⟨response, responses⟩
        · exact ⟨k, h, Or.inl rfl⟩
        · rcases List.mem_cons.mp h with rfl | h
          · exact ⟨n, by simp, Or.inr ⟨hgroup, response, rfl⟩⟩
          · exact hrest h
      · rcases List.mem_cons.mp h with rfl | h
        · exact ⟨k, by simp, Or.inl rfl⟩
        · exact hrest h

theorem DagMachine.mem_receive {error : Option Error} {responses : List (Option ExecutionMessage)}
    {k : Node} (h : k ∈ (d.receive contract error responses).states) :
    ∃ n ∈ d.states, k = n ∨
      inGroup contract n = true ∧ ∃ response, k = (n.1, { n.2 with message := response }) := by
  unfold DagMachine.receive at h
  dsimp only at h
  split_ifs at h
  · exact ⟨k, h, Or.inl rfl⟩
  · exact ⟨k, h, Or.inl rfl⟩
  · exact mem_storeResponses h

theorem DagCalls.receive (h : DagCalls turns d) (hmem : contract ∈ d.waiting)
    (error : Option Error) (responses : List (Option ExecutionMessage))
    (hkeeps : ∀ n ∈ (d.receive contract error responses).states, ∀ message,
      n.2.message = some message → message.seq = 0) :
    DagCalls turns (d.receive contract error responses) := by
  obtain ⟨htodo, hwaiting⟩ := d.receive_queues contract error responses
  have hsub : ∀ c ∈ d.waiting.erase contract, c ∈ d.waiting := fun c => List.mem_of_mem_erase
  refine ⟨fun k hk => ?_, fun c hc k hk hgroup => ?_, fun c hc k hk hgroup => ?_, ?_⟩
  · obtain ⟨n, hn, rfl | ⟨hgroup, response, rfl⟩⟩ := DagMachine.mem_receive hk
    · exact h.states k hn
    · cases response with
      | none => exact ⟨(h.states n hn).frames, (h.states n hn).steady, by simp⟩
      | some message =>
          refine (h.states n hn).reply ?_
          rw [h.waiting contract hmem n hn hgroup, hkeeps _ hk message rfl]
          rfl
  · rw [htodo] at hc
    obtain ⟨n, hn, rfl | ⟨hgroup', response, rfl⟩⟩ := DagMachine.mem_receive hk
    · exact h.unsent c hc k hn hgroup
    · -- the group that replied was sent
      obtain rfl : c = contract := inGroup_unique (n := n) hgroup hgroup'
      exact absurd rfl ((List.nodup_append.mp h.groups).2.2 c hc c hmem)
  · rw [hwaiting] at hc
    obtain ⟨n, hn, rfl | ⟨hgroup', response, rfl⟩⟩ := DagMachine.mem_receive hk
    · exact h.waiting c (hsub c hc) k hn hgroup
    · exact h.waiting c (hsub c hc) n hn hgroup
  · rw [htodo, hwaiting]
    exact h.groups.sublist ((List.Sublist.refl _).append List.erase_sublist)

/-! ### asyncExecute -/

/-- The executive states of the block: those of `DMTExecute` once it was started. -/
def Execution.states (x : Execution) : List Node :=
  match x.dmts, x.dag with
  | m :: _, _ => m.states
  | [], some d => d.states
  | [], none => []

/-- Invariant of `asyncExecute` with its turns. -/
structure ExecCalls (turns : List Turn) (x : Execution) : Prop where
  turnsOk : TurnsOk turns
  silent : x.dmts = [] → x.dag = none → turns = []
  dag : x.dmts = [] → ∀ d, x.dag = some d → DagCalls turns d
  dmts : ∀ m ∈ x.dmts, CallInv turns m ∧ m.phase ≠ .finished (.fault .emptyPop)

theorem ExecCalls.startDMT (hok : TurnsOk turns) (hnone : x.dmts = []) {states : List Node}
    (hstates : ∀ n ∈ states, FrameOk turns n.2) : ExecCalls turns (x.startDMT block states) := by
  have hdmts : (x.startDMT block states).dmts
      = [Machine.startBatch states (initialContext block) []] := by
    simp [Execution.startDMT, hnone]
  refine ⟨hok, fun h => ?_, fun h => ?_, fun m hm => ?_⟩
  · rw [hdmts] at h
    cases h
  · rw [hdmts] at h
    cases h
  · rw [hdmts] at hm
    rw [List.mem_singleton.mp hm]
    exact ⟨callInv_start hstates [], by simp [Machine.startBatch]⟩

theorem execCalls_start (env : ExecuteEnv) (block : Block) :
    ExecCalls [] (Execution.start env block) := by
  unfold Execution.start
  split_ifs
  · exact ExecCalls.startDMT .nil rfl fun n hn => (blockStates_unopened env block n hn).frameOk
  · exact ⟨.nil, fun _ _ => rfl, by simp, by simp⟩

/-- While no `DMTExecute` runs, turns are those of `DAGExecute`. -/
theorem Execution.turns_of_dmts_nil {env : BlockEnv} (hnone : x.dmts = []) {d d' : DagMachine}
    (hd : x.dag = some d) (hd' : x'.dag = some d') : x.turns env x' = d.turns d' := by
  simp [Execution.turns, hnone, hd, hd']

theorem ExecCalls.nextBlock (h : ExecCalls turns x) (hinv : x.Inv env block executors)
    (hnext : x.nextBlock = true) (error : Option Error) :
    ExecCalls (turns ++ x.turns (env.blockEnv block) (x.afterNextBlock env block error))
      (x.afterNextBlock env block error) := by
  obtain ⟨hnone, hdag⟩ := hinv.fresh hnext
  obtain rfl := h.silent hnone hdag
  have hturns : ∀ x', x.turns (env.blockEnv block) x' = [] := by
    intro x'
    simp [Execution.turns, hnone, hdag]
  rw [hturns, List.append_nil]
  have hfresh : ∀ n ∈ (blockStates env block).1, FrameOk [] n.2 :=
    fun n hn => (blockStates_unopened env block n hn).frameOk
  unfold Execution.afterNextBlock
  dsimp only
  split_ifs
  · exact ⟨.nil, fun _ _ => rfl, fun _ d hd => by simp [hdag] at hd, by simp [hnone]⟩
  · refine ExecCalls.startDMT .nil ?_ hfresh
    exact hnone
  · refine ⟨.nil, fun _ hd => absurd hd (by simp), fun _ d hd => ?_, by simp [hnone]⟩
    rw [← Option.some.inj hd]
    exact dagCalls_start env block
  · refine ExecCalls.startDMT .nil ?_ hfresh
    exact hnone

theorem ExecCalls.dagReply (h : ExecCalls turns x) (hnone : x.dmts = []) (hd : x.dag = some d)
    (hmem : contract ∈ d.waiting) (error : Option Error)
    (responses : List (Option ExecutionMessage))
    (hkeeps : ∀ n ∈ (d.receive contract error responses).states, ∀ message,
      n.2.message = some message → message.seq = 0) (answer : Option (Except Error Unit)) :
    ExecCalls turns (Execution.afterDAG block
      { x with dag := some (d.receive contract error responses) }
      (d.receive contract error responses).states answer) := by
  have hreceived := (h.dag hnone d hd).receive hmem error responses hkeeps
  have hx : ∀ errors, ExecCalls turns
      { x with dag := some (d.receive contract error responses), errors := errors } := by
    intro errors
    refine ⟨h.turnsOk, fun _ hd' => absurd hd' (by simp), fun _ d' hd' => ?_,
        by simp [hnone]⟩
    rw [← Option.some.inj hd']
    exact hreceived
  rcases answer with _ | (e | u)
  · exact hx x.errors
  · exact hx _
  · refine ExecCalls.startDMT h.turnsOk ?_ hreceived.states
    exact hnone

/-- One step of `asyncExecute`. -/
theorem ExecCalls.step (hkeeps : executors.KeepsFrame) (h : ExecCalls turns x)
    (hinv : x.Inv env block executors) (hstep : Execution.Step env block executors x x')
    (hfirst : x'.KeepsFirstFrame) :
    ExecCalls (turns ++ x.turns (env.blockEnv block) x') x' := by
  cases hstep with
  | @nextBlock error hnext => exact h.nextBlock hinv hnext error
  | @dagSend d contract rest hd htodo =>
      have hnone := hinv.dmts_nil hd (by simp [htodo])
      have hnodup : (contexts d.states).Nodup := by
        rw [contexts_of_tags (hinv.dag d hd).2.tags]
        exact (distinct_blockStates env block).nodup
      obtain ⟨hcalls, hok⟩ := (h.dag hnone d hd).send h.turnsOk hnodup htodo
      rw [Execution.turns_of_dmts_nil hnone hd rfl]
      refine ⟨hok, fun _ hd' => absurd hd' (by simp), fun _ d' hd' => ?_,
        by simp [hnone]⟩
      rw [← Option.some.inj hd']
      exact hcalls
  | @dagReply d contract error responses hd hmem =>
      have hnone := hinv.dmts_nil hd (List.ne_nil_of_mem (List.mem_append_right _ hmem))
      have hdag : (Execution.afterDAG block
          { x with dag := some (d.receive contract error responses) }
          (d.receive contract error responses).states
          (d.receive contract error responses).answer).dag
            = some (d.receive contract error responses) := by
        rcases (d.receive contract error responses).answer with _ | (e | u) <;> rfl
      rw [Execution.turns_of_dmts_nil hnone hd hdag,
        DagMachine.turns_of_todo (d.receive_queues contract error responses).1, List.append_nil]
      exact h.dagReply hnone hd hmem error responses (hfirst _ hdag) _
  | @dmt before after m m' hdmts hm =>
      obtain ⟨rfl, rfl⟩ := hinv.only hdmts
      have hturns : x.turns (env.blockEnv block) { x with dmts := [] ++ m' :: [] }
          = (m.turn (env.blockEnv block) m').toList := by
        rcases hturn : m.turn (env.blockEnv block) m' with _ | t <;> rcases hdag : x.dag with _ | d
        all_goals simp [Execution.turns, hdag, hdmts, hturn, DagMachine.turns]
      obtain ⟨hcalls, hphase⟩ := h.dmts m (by simp [hdmts])
      obtain ⟨states, htags, hrun⟩ := hinv.runs m (by simp [hdmts])
      have hd := distinct_of_tags (distinct_blockStates env block) htags
      obtain ⟨hcalls', hok⟩ := hcalls.step hkeeps hd (Steps.explained hd hrun) h.turnsOk hm
      rw [hturns]
      refine ⟨hok, fun hnone => by simp at hnone, fun hnone => by simp at hnone, fun k hk => ?_⟩
      rw [List.nil_append, List.mem_singleton] at hk
      rw [hk]
      exact ⟨hcalls', hcalls.step_phase hphase hm⟩

theorem TurnRun.execCalls (hkeeps : executors.KeepsFrame)
    (h : TurnRun env block executors x turns) : ExecCalls turns x := by
  induction h with
  | start => exact execCalls_start env block
  | step hrun hstep hfirst ih => exact ih.step hkeeps hrun.steps.inv hstep hfirst

/-- Calls return to their callers.  Along every run whose replies keep context and
sequence number: the turns are right and open no frame twice; every call stack
ascends to its top, below the counter, and is what the last turn of its
transaction left; the last message sent to a transaction is of its top frame; and
`pop` never finds an empty stack. -/
theorem calls_return_to_callers (hkeeps : executors.KeepsFrame)
    (h : TurnRun env block executors x turns) :
    TurnsOk turns ∧
    (∀ n ∈ x.states, n.2.callStack.Pairwise (· > ·) ∧
      (∀ s ∈ n.2.callStack, s < n.2.currentSeq) ∧
      frameAfter turns n.2.contextID = (n.2.callStack, n.2.currentSeq)) ∧
    ∀ m ∈ x.dmts, m.phase ≠ .finished (.fault .emptyPop) ∧
      ∀ n ∈ m.states, ∀ d ∈ m.log.dispatched, n.2.contextID = d.contextID →
        n.2.callStack.head? = some d.message.seq := by
  have hcalls := h.execCalls hkeeps
  have hstates : ∀ n ∈ x.states, FrameOk turns n.2 := by
    intro n hn
    unfold Execution.states at hn
    split at hn
    next m rest hdmts => exact (hcalls.dmts m (by simp [hdmts])).1.states n hn
    next d hdmts hdag => exact (hcalls.dag hdmts d hdag).states n hn
    next => cases hn
  refine ⟨hcalls.turnsOk, fun n hn => ?_, fun m hm => ?_⟩
  · have hn' := hstates n hn
    exact ⟨hn'.frames.descending, hn'.frames.below, hn'.steady⟩
  · obtain ⟨hinv, hphase⟩ := hcalls.dmts m hm
    exact ⟨hphase, hinv.sent⟩

/-! ### A nested call -/

/-- The turns of a scheduled run of `DMTExecute`. -/
def Machine.turnsAlong (env : BlockEnv) (staticCall : Bool)
    (reply : List (List ExecutionMessage) → ExecutionMessage → Reply)
    (hash : List (List ExecutionMessage) → Except Error H256) (m : Machine) :
    List Machine.Move → List Turn
  | [] => []
  | a :: schedule =>
      let m' := m.move env staticCall reply hash a
      (if m' = m then [] else (m.turn env m').toList) ++
        m'.turnsAlong env staticCall reply hash schedule

variable {reply : List (List ExecutionMessage) → ExecutionMessage → Reply}
  {hash : List (List ExecutionMessage) → Except Error H256}

/-- A scheduled run of `DMTExecute` is a run of `asyncExecute`. -/
theorem TurnRun.along (schedule : List Machine.Move) : ∀ {x : Execution} {m : Machine}
    {turns : List Turn}, TurnRun env block (.ofFun reply hash) x turns → x.dag = none →
    x.dmts = [m] →
    TurnRun env block (.ofFun reply hash)
      { x with dmts := [m.run (env.blockEnv block) env.staticCall reply hash schedule] }
      (turns ++ m.turnsAlong (env.blockEnv block) env.staticCall reply hash schedule) := by
  induction schedule with
  | nil =>
      intro x m turns h _ hdmts
      rw [Machine.turnsAlong, List.append_nil, Machine.run, List.foldl_nil, ← hdmts]
      exact h
  | cons a schedule ih =>
      intro x m turns h hdag hdmts
      rw [Machine.turnsAlong, Machine.run, List.foldl_cons]
      by_cases hsame : m.move (env.blockEnv block) env.staticCall reply hash a = m
      · simp only [hsame, if_true, List.nil_append]
        exact ih h hdag hdmts
      · have hstep := (Machine.move_cases m a).resolve_left hsame
        have hexec := @Execution.Step.dmt env block _ x [] [] _ _ hdmts hstep
        have hnext := h.step hexec fun d hd => by simp [hdag] at hd
        have hturns : x.turns (env.blockEnv block) { x with
            dmts := [m.move (env.blockEnv block) env.staticCall reply hash a] }
              = (m.turn (env.blockEnv block)
                (m.move (env.blockEnv block) env.staticCall reply hash a)).toList := by
          rcases hturn : m.turn (env.blockEnv block)
            (m.move (env.blockEnv block) env.staticCall reply hash a) with _ | t
          all_goals simp [Execution.turns, hdag, hdmts, hturn]
        rw [List.nil_append, hturns] at hnext
        have hrest := ih hnext hdag rfl
        simp only [hsame, if_false]
        rw [← List.append_assoc]
        exact hrest

/-- The run of a block without DAG transactions after `batchNextBlock`. -/
theorem turnRun_dmt (hstatic : env.staticCall = false) (hdag : (blockStates env block).2 = false) :
    TurnRun env block (.ofFun reply hash)
      { nextBlock := false, dmts := [dmtStart env block] } [] := by
  obtain ⟨hstart, hafter⟩ := Execution.afterNextBlock_start hstatic hdag
  have hstep := @Execution.Step.nextBlock env block (.ofFun reply hash) (Execution.start env block)
    none (by rw [hstart])
  have hrun := TurnRun.start.step hstep (by rw [hafter]; exact fun d hd => by cases hd)
  have hturns : (Execution.start env block).turns (env.blockEnv block)
      ((Execution.start env block).afterNextBlock env block none) = [] := by
    simp [Execution.turns, hstart]
  rwa [hturns, hafter] at hrun

/-- Executors under which `a` calls `b`; all else finishes. -/
def nesting (_ : List (List ExecutionMessage)) (message : ExecutionMessage) : Reply :=
  match message.type with
  | .TXHASH =>
      .message { message with type := .MESSAGE, fromAddr := message.toAddr, toAddr := "b"
                              keyLocks := [] }
  | _ =>
      .message { message with type := .FINISHED, fromAddr := message.toAddr
                              toAddr := message.fromAddr, keyLocks := [] }

theorem nesting_keepsFrame : (Executors.ofFun nesting plainRoot).KeepsFrame where
  contextID := by
    intro before message r h
    simp only [Executors.ofFun, nesting] at h
    split at h <;> cases h <;> rfl
  seq := by
    intro before message r h
    simp only [Executors.ofFun, nesting] at h
    split at h <;> cases h <;> rfl

/-- The moves of a call, the call it makes, the return of that one, and the end. -/
def nestedSchedule : List Machine.Move :=
  [.visit, .allSended, .reply 0, .visit, .allSended, .reply 0, .visit, .allSended, .reply 0,
    .visit, .allSended, .check]

/-- The return of the second frame goes to the first one, whose return ends the
transaction. -/
theorem calls_return_to_callers_nested :
    ∃ x turns, TurnRun plainEnv (callsTo ["a"]) (.ofFun nesting plainRoot) x turns ∧
      turns.map (fun t => t.message?.map ExecutionMessage.seq) = [some 0, some 1, some 0, none] ∧
      TurnsOk turns := by
  have hstart := @turnRun_dmt plainEnv (callsTo ["a"]) nesting plainRoot rfl (by decide +kernel)
  have hrun := hstart.along nestedSchedule rfl rfl
  exact ⟨_, _, hrun, by decide +kernel, (calls_return_to_callers nesting_keepsFrame hrun).1⟩

end BcosScheduler
