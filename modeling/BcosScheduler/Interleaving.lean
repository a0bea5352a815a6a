/-
BcosScheduler/Interleaving.lean

`DMTExecute` with the parties of all its batches.

Whoever completes a batch goes on with `DMTExecute` in its own thread and begins
the next one, while the other reply handlers of the batch, and maybe its
sender, are still on their way through `checkBatch`.  Here a run is the list of
all batches begun, each with its parties (`BatchRun`), and a step is one of any
party of any of them.

`Machine` of `BcosScheduler.Machine` takes a reply handler in one step and knows
no parties of earlier batches.  Nothing is lost by that: those left over in a
completed batch change nothing but where they are (`Inv.leftover`), and the
batch that runs now is explained by rounds as a machine is.  Rounds are runs of
the machine (`Explained.run`, the converse of `Steps.explained`), so every
interleaving is followed by a run of the machine with the same batches, messages,
receipts and outcome (`interleaved_refines`).
-/
import BcosScheduler.BatchCompletion
import BcosScheduler.ExecuteAgreement
import BcosScheduler.Termination

namespace BcosScheduler

variable {env : BlockEnv} {executors : Executors} {staticCall : Bool}
  {states₀ states : List Node} {ctx₀ ctx : SendContext} {history : List BatchLog}
  {log : SendLog} {c : Cursor} {todo : List Node} {rs : List (ContextID × Reply)}
  {m m' : Machine}

/-! ### Rounds are runs -/

/-- The last receiver of distinct ones is new. -/
theorem nodup_snoc {p : ContextID × Reply} (h : ((rs ++ [p]).map Prod.fst).Nodup) :
    p.1 ∉ rs.map Prod.fst ∧ (rs.map Prod.fst).Nodup := by
  rw [List.map_append, List.map_cons, List.map_nil, ← List.concat_eq_append] at h
  exact (List.nodup_concat _ _).mp h

/-- As many replies as messages. -/
theorem Answers.length_eq {c : Cursor} (h : Answers executors history log rs)
    (hshape : SendShape states log c todo) : rs.length = log.status.total := by
  rw [hshape.total, ← List.length_map Prod.fst, h.perm.length_eq, SendLog.sentTo,
    List.length_map]

/-- The traversal of a batch, before any reply. -/
theorem SendReach.visits (staticCall : Bool) (executors : Executors) (history : List BatchLog)
    (h : SendReach env states ctx log c todo) :
    Machine.Steps env staticCall executors (Machine.startBatch states ctx history)
      { todo := todo, cursor := c, log := log, history := history } := by
  induction h with
  | start => exact .refl
  | @step log log' c c' n rest rest' _ hstep ih =>
      have hvisit : Machine.visit env { todo := n :: rest, cursor := c, log := log
                                        history := history } n rest
          = { todo := rest', cursor := c', log := log', history := history } := by
        simp only [Machine.visit, hstep]
      rw [← hvisit]
      exact ih.tail (.visit rfl rfl)

/-- A machine after the whole traversal, with replies written. -/
def Machine.answered (history : List BatchLog) (log : SendLog) (c : Cursor)
    (rs : List (ContextID × Reply)) : Machine where
  todo := []
  cursor := { c with visited := c.visited.map (applyReplies rs) }
  log := log.seen rs true
  replied := rs
  history := history

theorem Machine.setAllSended_answered (history : List BatchLog) (log : SendLog) (c : Cursor) :
    Machine.setAllSended { todo := [], cursor := c, log := log, history := history }
      = answered history log c [] := by
  have hvisited : c.visited.map (applyReplies []) = c.visited := List.map_id _
  simp [setAllSended, answered, SendLog.seen, hvisited]

theorem Machine.receive_answered (history : List BatchLog) (log : SendLog) (c : Cursor)
    (rs : List (ContextID × Reply)) (p : ContextID × Reply) :
    (answered history log c rs).receive p.1 p.2 = answered history log c (rs ++ [p]) := by
  have hvisited : (c.visited.map (applyReplies rs)).map (Machine.storeAt p.1 p.2)
      = c.visited.map (applyReplies (rs ++ [p])) := by
    rw [List.map_map]
    exact List.map_congr_left fun k _ => (applyReplies_snoc rs p k).symm
  simp [receive, answered, SendLog.seen, hvisited, List.countP_append, List.countP_cons,
    Nat.add_assoc]

/-- A reply to a batch whose traversal has ended. -/
theorem Machine.answered_reply (env : BlockEnv) (staticCall : Bool) (c : Cursor)
    {p : ContextID × Reply}
    (hreply : ∃ d ∈ log.dispatched, d.contextID = p.1 ∧
      executors.reply (messagesOf history) d.message p.2)
    (hnew : p.1 ∉ rs.map Prod.fst) :
    Step env staticCall executors (answered history log c rs)
      ((answered history log c (rs ++ [p])).checkBatch staticCall) := by
  obtain ⟨d, hd, hctx, hreply⟩ := hreply
  rw [← receive_answered, ← hctx]
  exact .reply rfl hd (hctx ▸ hnew) hreply

/-- As long as a reply is missing the batch goes on. -/
theorem Machine.answered_steps (env : BlockEnv) (staticCall : Bool) (c : Cursor)
    (hreceived : log.status.received = 0)
    (hnodup : (rs.map Prod.fst).Nodup)
    (hreply : ∀ p ∈ rs, ∃ d ∈ log.dispatched, d.contextID = p.1 ∧
      executors.reply (messagesOf history) d.message p.2)
    (hlt : rs.length < log.status.total) :
    Steps env staticCall executors (answered history log c []) (answered history log c rs) := by
  induction rs using List.reverseRecOn with
  | nil => exact .refl
  | append_singleton rs p ih =>
      rw [List.length_append, List.length_singleton] at hlt
      obtain ⟨hnew, hold⟩ := nodup_snoc hnodup
      have hopen : (answered history log c (rs ++ [p])).checkBatch staticCall
          = answered history log c (rs ++ [p]) := by
        apply if_neg
        rintro ⟨-, heq, -⟩
        simp only [answered, SendLog.seen, hreceived, List.length_append,
          List.length_singleton] at heq
        omega
      have hprev := ih hold (fun q hq => hreply q (List.mem_append_left _ hq)) (by omega)
      have hstep := answered_reply env staticCall c (hreply p (by simp)) hnew
      rw [hopen] at hstep
      exact hprev.tail hstep

/-- The last reply, or the sender if there is none, completes the batch. -/
theorem Machine.answered_checkBatch (hd : DistinctContexts states)
    (hsend : sendAll env states ctx = .ok (log, c)) (hans : Answers executors history log rs) :
    (answered history log c rs).checkBatch staticCall
      = afterBatch staticCall { answered history log c rs with
          log := { log.seen rs true with status := { (log.seen rs true).status with
            callbackExecuted := true } } } (roundEnd log c rs) := by
  have hshape := (sendReach_of_sendAll hsend).shape hd.keyed hd.nodup
  have hlen := hans.length_eq hshape
  have hcomplete : (log.seen rs true).status.received = (log.seen rs true).status.total := by
    simp [SendLog.seen, hshape.received, hlen]
  have hall : (log.seen rs true).status.allSended = true := by simp [SendLog.seen]
  have hend : endBatch (log.seen rs true).status (answered history log c rs).states
      (log.seen rs true).ctx.keyLocks = roundEnd log c rs := by
    rw [Machine.states, answered, List.append_nil, roundEnd]
    rfl
  rw [checkBatch, if_pos ⟨hall, hcomplete, hshape.pending⟩, ← hend]
  rfl

/-- A round is a run of the machine. -/
theorem Machine.round_steps (staticCall : Bool) (hd : DistinctContexts states)
    (hsend : sendAll env states ctx = .ok (log, c)) (hans : Answers executors history log rs) :
    Steps env staticCall executors (startBatch states ctx history)
      ((answered history log c rs).checkBatch staticCall) := by
  have hreach := sendReach_of_sendAll hsend
  have hshape := hreach.shape hd.keyed hd.nodup
  have hnodup := hans.nodup hshape.sentNodup
  have hlen := hans.length_eq hshape
  have hsent : Steps env staticCall executors (startBatch states ctx history)
      (answered history log c []) := by
    rw [← setAllSended_answered]
    exact (hreach.visits staticCall executors history).tail (.allSended rfl rfl)
  refine hsent.trans ?_
  rcases List.eq_nil_or_concat rs with rfl | ⟨init, p, rfl⟩
  · exact .single (.check rfl rfl (by simp [answered, SendLog.seen]))
  · rw [List.concat_eq_append] at *
    obtain ⟨hnew, hold⟩ := nodup_snoc hnodup
    rw [List.length_append, List.length_singleton] at hlen
    have hinit := answered_steps env staticCall c hshape.received hold
      (fun q hq => hans.reply q (List.mem_append_left _ hq)) (by omega)
    exact hinit.tail (answered_reply env staticCall c (hans.reply p (by simp)) hnew)

/-- What the next batch starts with, or the end of `DMTExecute`, as a run of the
machine reaches it. -/
theorem Reaches.run (staticCall : Bool) (hd : DistinctContexts states₀)
    (h : Reaches env executors states₀ ctx₀ states ctx history) :
    Machine.Steps env staticCall executors (Machine.startBatch states₀ ctx₀ [])
      (if states = [] ∧ history ≠ [] then
        (Machine.startBatch states ctx history).finish staticCall
      else Machine.startBatch states ctx history) := by
  induction h with
  | start =>
      rw [if_neg (by simp)]
      exact .refl
  | @next states states' ctx history log c rs keyLocks victims hreach hfirst hsend hans hend ih =>
      rw [if_neg fun hboth => hboth.2 (hfirst hboth.1)] at ih
      have hdist := hreach.distinct hd
      have hround := Machine.round_steps staticCall hdist hsend hans
      rw [Machine.answered_checkBatch hdist hsend hans, hend] at hround
      refine ih.trans ?_
      by_cases hempty : states' = []
      · rw [if_pos ⟨hempty, by simp⟩]
        rw [Machine.afterBatch, if_pos (by simp [hempty])] at hround
        exact hround
      · rw [if_neg fun hboth => hempty hboth.1]
        rw [Machine.afterBatch, if_neg (by simp [hempty])] at hround
        exact hround

/-- The same completed batches, messages, members and receipts, in the same phase. -/
structure Machine.SameResults (m m' : Machine) : Prop where
  phase : m'.phase = m.phase
  history : m'.history = m.history
  ctx : m'.log.ctx = m.log.ctx
  dispatched : m'.log.dispatched = m.log.dispatched
  receipts : m'.receipts = m.receipts

theorem Machine.SameResults.trans {m'' : Machine} (h : m.SameResults m')
    (h' : m'.SameResults m'') : m.SameResults m'' where
  phase := h'.phase.trans h.phase
  history := h'.history.trans h.history
  ctx := h'.ctx.trans h.ctx
  dispatched := h'.dispatched.trans h.dispatched
  receipts := h'.receipts.trans h.receipts

theorem Machine.SameResults.endedBy (h : m.SameResults m') (hended : m'.EndedBy executors) :
    m.EndedBy executors := by
  unfold Machine.EndedBy Machine.CalledBack Machine.Thrown Machine.Fresh at hended ⊢
  rwa [h.phase, h.history, h.dispatched] at hended

theorem Reaches.run_batch (staticCall : Bool) (hd : DistinctContexts states₀)
    (h : Reaches env executors states₀ ctx₀ states ctx history)
    (hfirst : states = [] → history = []) :
    Machine.Steps env staticCall executors (Machine.startBatch states₀ ctx₀ [])
      (Machine.startBatch states ctx history) := by
  have hrun := h.run staticCall hd
  rwa [if_neg fun hboth => hboth.2 (hfirst hboth.1)] at hrun

/-- **Rounds are runs.**  Whatever is explained by rounds, a run of the machine
comes to. -/
theorem Explained.run (hd : DistinctContexts states₀)
    (h : Explained env executors staticCall states₀ ctx₀ m) :
    ∃ m', Machine.Steps env staticCall executors (Machine.startBatch states₀ ctx₀ []) m' ∧
      m.SameResults m' := by
  have hempty : ∀ {ctx}, Emptied env executors states₀ ctx₀ ctx m →
      Machine.Steps env staticCall executors (Machine.startBatch states₀ ctx₀ [])
        ((Machine.startBatch [] ctx m.history).finish staticCall) := fun ⟨hreach, hne, _, _⟩ => by
    have hrun := hreach.run staticCall hd
    rwa [if_pos ⟨rfl, hne⟩] at hrun
  unfold Explained at h
  rcases hphase : m.phase with _ | _ | (e | header | f)
  · rw [hphase] at h
    obtain ⟨states, ctx, hreach, hfirst, hm⟩ := h
    obtain ⟨log, visited, b, hsend, -, hlog, -⟩ := hm.path
    exact ⟨_, (hreach.run_batch staticCall hd hfirst).trans
      (hsend.visits staticCall executors m.history),
      hphase.symm, rfl, by rw [hlog]; rfl, by rw [hlog]; rfl, hm.receipts.symm⟩
  · rw [hphase] at h
    obtain ⟨rfl, hreceipts, ctx, hemptied⟩ := h
    have hlog := hemptied.2.2.2
    exact ⟨_, hempty hemptied, hphase.symm, rfl, by rw [hlog]; rfl, by rw [hlog]; rfl,
      hreceipts.symm⟩
  · rw [hphase] at h
    obtain ⟨hreceipts, ⟨states, ctx, log, c, rs, hreach, hfirst, hsend, hans, hend, hctx, hdisp,
      rfl⟩ | ⟨rfl, ctx, e', hemptied, hhash, rfl⟩⟩ := h
    · have hdist := hreach.distinct hd
      have hround := Machine.round_steps staticCall hdist hsend hans
      rw [Machine.answered_checkBatch hdist hsend hans, hend] at hround
      exact ⟨_, (hreach.run_batch staticCall hd hfirst).trans hround, hphase.symm, rfl,
        hctx.symm, hdisp.symm, hreceipts.symm⟩
    · have hlog := hemptied.2.2.2
      exact ⟨_, (hempty hemptied).tail (.hash rfl hhash), hphase.symm, rfl, by rw [hlog]; rfl,
        by rw [hlog]; rfl, hreceipts.symm⟩
  · rw [hphase] at h
    obtain ⟨ctx, hemptied, hreceipts, hkind⟩ := h
    have hlog := hemptied.2.2.2
    rcases hkind with ⟨rfl, rfl⟩ | ⟨rfl, hash, hhash, rfl⟩
    · exact ⟨_, hempty hemptied, hphase.symm, rfl, by rw [hlog]; rfl, by rw [hlog]; rfl,
        hreceipts.symm⟩
    · exact ⟨_, (hempty hemptied).tail (.hash rfl hhash), hphase.symm, rfl, by rw [hlog]; rfl,
        by rw [hlog]; rfl, hreceipts.symm⟩
  · rw [hphase] at h
    obtain ⟨hreceipts, states, ctx, log, hreach, hfirst, hctx, hdisp,
      ⟨c, n, rest, hsend, hfail⟩ | ⟨c, rs, hsend, hans, hend⟩⟩ := h
    · let stop : Machine := { todo := n :: rest, cursor := c, log := log, history := m.history }
      have hvisit : stop.visit env n rest = { stop with phase := .finished (.fault f) } := by
        simp only [Machine.visit, stop, hfail]
      have hstep : Machine.Step env staticCall executors stop
          { stop with phase := .finished (.fault f) } := hvisit ▸ .visit rfl rfl
      exact ⟨_, ((hreach.run_batch staticCall hd hfirst).trans
        (hsend.visits staticCall executors m.history)).tail hstep, hphase.symm, rfl, hctx.symm,
        hdisp.symm, hreceipts.symm⟩
    · have hdist := hreach.distinct hd
      have hround := Machine.round_steps staticCall hdist hsend hans
      rw [Machine.answered_checkBatch hdist hsend hans, hend] at hround
      exact ⟨_, (hreach.run_batch staticCall hd hfirst).trans hround, hphase.symm, rfl,
        hctx.symm, hdisp.symm, hreceipts.symm⟩

/-! ### A failing visit -/

theorem traverseStep_withCounts_error {n : Node} {rest : List Node} {f : Fault} (k : Nat)
    (b : Bool) (h : traverseStep (sendCallback env) n rest log c = .error f) :
    traverseStep (sendCallback env) n rest (log.withCounts k b) c = .error f := by
  unfold traverseStep at h ⊢
  split_ifs at h ⊢
  rw [sendCallback_withCounts]
  rcases hcall : sendCallback env log n.2 with f' | ⟨hint, log', state⟩
  · rw [hcall] at h
    exact h
  · rw [hcall] at h
    cases h

/-- A visit that fails, seen from the settled machine. -/
theorem Mid.settled_fault {n : Node} {rest : List Node} {f : Fault} (hd : DistinctContexts states)
    (hm : Mid env executors states ctx m.settled) (hphase : m.phase = .batching)
    (htodo : m.todo = n :: rest)
    (h : traverseStep (sendCallback env) n rest m.log m.cursor = .error f) :
    ∃ log, SendFault env states ctx log f ∧ m.log.ctx = log.ctx ∧
      m.log.dispatched = log.dispatched := by
  have hvisit : m.settled.visit env n rest = { m.settled with phase := .finished (.fault f) } := by
    unfold Machine.visit
    rw [show m.settled.log = m.log.withCounts m.replied.length false from rfl,
      show m.settled.cursor = m.cursor from rfl,
      traverseStep_withCounts_error m.replied.length false h]
    rfl
  rcases hm.visit hd htodo with ⟨f', log, hfault, hctx, hdisp, heq⟩ | ⟨log, cursor, todo, hok, -⟩
  · rw [hvisit] at heq
    cases congrArg Machine.phase heq
    exact ⟨log, hfault, hctx, hdisp⟩
  · rw [hvisit] at hok
    have hbatching : Phase.finished (.fault f) = m.phase := congrArg Machine.phase hok
    rw [hphase] at hbatching
    cases hbatching

/-! ### All batches of a run -/

namespace BatchRun

/-- What the winner of a batch goes on with after its step from `r` to `r'`: the
continuation of `DMTExecute`, in a new batch if states are left. -/
def continuation (staticCall : Bool) (r r' : BatchRun) : List BatchRun :=
  (r'.completions.drop r.completions.length).map fun e =>
    { machine := r'.machine.afterBatch staticCall e }

end BatchRun

namespace Interleaved

section

variable (env : BlockEnv) (staticCall : Bool) (executors : Executors)

/-- `DMTExecute` at its first batch.  The latest batch stands in front. -/
def start (states : List Node) (ctx : SendContext) : List BatchRun :=
  [BatchRun.start states ctx []]

/-- One step of a party of any batch, or the answer of `batchGetHashes`. -/
inductive Step : List BatchRun → List BatchRun → Prop
  | party {batches : List BatchRun} {i : Nat} {r r' : BatchRun} : batches[i]? = some r →
      r.machine.phase = .batching → BatchRun.Step env executors r r' →
      Step batches (r.continuation staticCall r' ++ batches.set i r')
  /-- The traversal throws or fails an assertion. -/
  | fault {batches : List BatchRun} {i : Nat} {r : BatchRun} {n : Node} {rest : List Node}
      {f : Fault} : batches[i]? = some r → r.machine.phase = .batching →
      r.machine.todo = n :: rest → r.sending = none →
      traverseStep (sendCallback env) n rest r.machine.log r.machine.cursor = .error f →
      Step batches
        (batches.set i { r with machine := { r.machine with phase := .finished (.fault f) } })
  | hash {batches : List BatchRun} {i : Nat} {r : BatchRun} {answer : Except Error H256} :
      batches[i]? = some r → r.machine.phase = .hashing →
      executors.hash r.machine.sentBefore answer →
      Step batches (batches.set i { r with machine := r.machine.hashDone env answer })

/-- Any number of steps. -/
def Steps : List BatchRun → List BatchRun → Prop :=
  Relation.ReflTransGen (Step env staticCall executors)

/-- Who moves next: a party of batch `i`, or the executors with their state root. -/
inductive Move
  | party (i : Nat) (a : BatchRun.Move)
  | hash (i : Nat)
  deriving DecidableEq, Repr

/-- Make a move if it is possible, with executors that reply by function. -/
def move (reply : List (List ExecutionMessage) → ExecutionMessage → Reply)
    (hash : List (List ExecutionMessage) → Except Error H256) (batches : List BatchRun) :
    Move → List BatchRun
  | .party i a =>
      match batches[i]? with
      | some r =>
          if r.machine.phase = .batching then
            r.continuation staticCall (r.move env reply a) ++ batches.set i (r.move env reply a)
          else batches
      | none => batches
  | .hash i =>
      match batches[i]? with
      | some r =>
          if r.machine.phase = .hashing then
            batches.set i { r with machine := r.machine.hashDone env (hash r.machine.sentBefore) }
          else batches
      | none => batches

/-- A run under a schedule. -/
def run (reply : List (List ExecutionMessage) → ExecutionMessage → Reply)
    (hash : List (List ExecutionMessage) → Except Error H256) (batches : List BatchRun)
    (schedule : List Move) : List BatchRun :=
  schedule.foldl (move env staticCall reply hash) batches

/-- A scheduled run is a run. -/
theorem run_steps (reply : List (List ExecutionMessage) → ExecutionMessage → Reply)
    (hash : List (List ExecutionMessage) → Except Error H256) (batches : List BatchRun)
    (schedule : List Move) :
    Steps env staticCall (.ofFun reply hash) batches
      (run env staticCall reply hash batches schedule) := by
  have hmove : ∀ (batches : List BatchRun) (a : Move),
      Steps env staticCall (.ofFun reply hash) batches
        (move env staticCall reply hash batches a) := by
    intro batches a
    cases a with
    | party i a =>
        unfold move
        dsimp only
        split
        next r hr =>
          split_ifs with hphase
          · rcases BatchRun.move_cases env reply hash r a with heq | hstep
            · -- nothing has moved, and nothing goes on
              have hnone : r.continuation staticCall r = [] := by simp [BatchRun.continuation]
              have hsame : batches.set i r = batches := by
                obtain ⟨hlt, rfl⟩ := List.getElem?_eq_some_iff.mp hr
                exact List.set_getElem_self hlt
              rw [heq, hnone, hsame]
              exact .refl
            · exact .single (.party hr hphase hstep)
          · exact .refl
        next => exact .refl
    | hash i =>
        unfold move
        dsimp only
        split
        next r hr =>
          split_ifs with hphase
          · exact .single (.hash hr hphase rfl)
          · exact .refl
        next => exact .refl
  induction schedule generalizing batches with
  | nil => exact .refl
  | cons a rest ih => exact (hmove batches a).trans (ih _)

end

end Interleaved

/-! ### Those left over -/

namespace BatchRun

variable {r r' : BatchRun}

/-- The machine of a batch stays in its batch. -/
theorem Step.frame (hstep : Step env executors r r') :
    r'.machine.history = r.machine.history ∧ r'.machine.phase = r.machine.phase := by
  have hcheck : ∀ stage, (r.checkBatch stage).1.machine.history = r.machine.history ∧
      (r.checkBatch stage).1.machine.phase = r.machine.phase := by
    intro stage
    cases stage with
    | counted =>
        unfold BatchRun.checkBatch
        dsimp only
        split_ifs <;> exact ⟨rfl, rfl⟩
    | _ => exact ⟨rfl, rfl⟩
  cases hstep with
  | check => exact hcheck _
  | checkSender => exact hcheck _
  | _ => exact ⟨rfl, rfl⟩

/-- After the completion of a batch its parties change nothing but where they
are. -/
theorem Inv.leftover (h : Inv env executors states ctx r) (hd : DistinctContexts states)
    (hexecuted : r.status.callbackExecuted = true) (hstep : Step env executors r r') :
    r'.machine = r.machine ∧ r'.completions = r.completions := by
  have hready := h.ready hexecuted
  obtain ⟨htodo, hsending⟩ := h.ended hready.1
  have hcheck : ∀ stage, (r.checkBatch stage).1 = r := by
    intro stage
    cases stage with
    | counted => exact if_pos hexecuted
    | _ => rfl
  cases hstep with
  | visit htodo' _ _ =>
      rw [htodo] at htodo'
      cases htodo'
  | send hsending' =>
      rw [hsending] at hsending'
      cases hsending'
  | allSended _ _ _ =>
      have hall : r.machine.log.status.allSended = true := hready.1
      refine ⟨?_, rfl⟩
      show r.machine.setAllSended = r.machine
      rw [Machine.setAllSended, ← hall]
  | store hi _ => exact absurd hready (h.not_ready hd (List.mem_of_getElem? hi) rfl)
  | count hi => exact absurd hready (h.not_ready hd (List.mem_of_getElem? hi) rfl)
  | @check _ _ stage _ _ =>
      show (r.checkBatch stage).1.machine = _ ∧ (r.checkBatch stage).1.completions = _
      rw [hcheck stage]
      exact ⟨rfl, rfl⟩
  | @checkSender stage _ _ =>
      show (r.checkBatch stage).1.machine = _ ∧ (r.checkBatch stage).1.completions = _
      rw [hcheck stage]
      exact ⟨rfl, rfl⟩

/-- What goes on after a step: nothing, or `DMTExecute` after the batch was completed. -/
theorem Inv.continuation (h : Inv env executors states ctx r) (hd : DistinctContexts states)
    (hstep : Step env executors r r') :
    r.continuation staticCall r' =
      if r.status.callbackExecuted = false ∧ r'.status.callbackExecuted = true then
        [{ machine := r'.machine.afterBatch staticCall r'.batchEnd }]
      else [] := by
  have h' := hstep.inv hd h
  rw [BatchRun.continuation]
  rcases hexecuted : r.status.callbackExecuted with _ | _
  · have hbefore : r.completions = [] := by
      rw [h.once, hexecuted]
      rfl
    rw [hbefore, h'.once]
    rcases r'.status.callbackExecuted with _ | _ <;> rfl
  · obtain ⟨-, hsame⟩ := h.leftover hd hexecuted hstep
    rw [hsame]
    simp

/-- Every message of a complete batch has its reply. -/
theorem Inv.replied_length (h : Inv env executors states ctx r) (hd : DistinctContexts states)
    (hready : r.Ready) : r.machine.replied.length = r.status.total := by
  obtain ⟨hsending, hcounted⟩ := h.all_counted hd hready.2
  have hnodup := h.handlersNodup hd
  have hhanded := h.handed
  rw [hsending, Option.toList_none, List.append_nil] at hnodup hhanded
  have hreplied : (r.machine.replied.map Prod.fst).Nodup := h.mid.repliedNodup
  have hperm : (r.machine.replied.map Prod.fst).Perm
      ((r.handlers.map Handler.dispatch).map Dispatch.contextID) := by
    refine (List.perm_ext_iff_of_nodup hreplied hnodup).mpr fun i => ⟨h.origin i, fun hi => ?_⟩
    obtain ⟨d, hd', rfl⟩ := List.mem_map.mp hi
    obtain ⟨k, hk, rfl⟩ := List.mem_map.mp hd'
    exact (h.replied k hk).mpr (counted_ne_waiting (hcounted k hk))
  have hlen := hperm.length_eq
  rw [List.length_map, List.length_map, hhanded] at hlen
  rw [hlen, h.total hd]

end BatchRun

/-! ### The batch that runs now -/

namespace Interleaved

variable {r r' : BatchRun} {past batches batches' : List BatchRun}

/-- The batch that runs now, or the end of `DMTExecute`. -/
inductive Current (env : BlockEnv) (executors : Executors) (staticCall : Bool)
    (states₀ : List Node) (ctx₀ : SendContext) (r : BatchRun) : Prop
  | batching {states : List Node} {ctx : SendContext} :
      Reaches env executors states₀ ctx₀ states ctx r.machine.history →
      (states = [] → r.machine.history = []) → BatchRun.Inv env executors states ctx r →
      r.status.callbackExecuted = false → Current env executors staticCall states₀ ctx₀ r
  | after : r.machine.phase ≠ .batching →
      Explained env executors staticCall states₀ ctx₀ r.machine → r.completions = [] →
      Current env executors staticCall states₀ ctx₀ r

/-- A batch that was completed, with those left over in it. -/
def Completed (env : BlockEnv) (executors : Executors) (r : BatchRun) : Prop :=
  ∃ states ctx, DistinctContexts states ∧ BatchRun.Inv env executors states ctx r ∧
    r.status.callbackExecuted = true

/-- Invariant of a run: all batches but the latest were completed. -/
def Inv (env : BlockEnv) (executors : Executors) (staticCall : Bool) (states₀ : List Node)
    (ctx₀ : SendContext) : List BatchRun → Prop
  | [] => False
  | r :: past => Current env executors staticCall states₀ ctx₀ r ∧
      ∀ p ∈ past, Completed env executors p

/-- `DMTExecute` goes on from a completed batch as rounds do. -/
theorem current_afterBatch (hd : DistinctContexts states₀)
    (hreach : Reaches env executors states₀ ctx₀ states ctx r.machine.history)
    (hfirst : states = [] → r.machine.history = []) (h : BatchRun.Inv env executors states ctx r)
    (hexecuted : r.status.callbackExecuted = true) :
    Current env executors staticCall states₀ ctx₀
      { machine := r.machine.afterBatch staticCall r.batchEnd } := by
  have hdist := hreach.distinct hd
  have hready := h.ready hexecuted
  have hall : r.machine.settled.log.status.allSended = true := hready.1
  have hreceived : r.machine.settled.log.status.received
      = r.machine.settled.log.status.total := h.replied_length hdist hready
  obtain ⟨log, c, hsend, hans, hend, -, b, hlog⟩ := h.mid.complete hdist hall hreceived
  have hctx := congrArg SendLog.ctx hlog
  have hdisp := congrArg SendLog.dispatched hlog
  have herased := congrArg SendLog.erased hlog
  have hround : r.batchEnd = roundEnd log c r.machine.replied := hend
  rcases hbatch : r.batchEnd with e | f | ⟨states', keyLocks, victims⟩
  · refine .after (by simp [Machine.afterBatch]) ?_ rfl
    rw [endBatch_error hbatch] at hbatch
    exact ⟨h.mid.receipts, Or.inl ⟨states, ctx, log, c, r.machine.replied, hreach, hfirst, hsend,
      hans, hround.symm.trans hbatch, hctx, hdisp, rfl⟩⟩
  · exact .after (by simp [Machine.afterBatch]) ⟨h.mid.receipts, states, ctx, log, hreach, hfirst,
      hctx, hdisp, Or.inr ⟨c, r.machine.replied, hsend, hans, hround.symm.trans hbatch⟩⟩ rfl
  · have hnext := hreach.next hfirst hsend hans (hround.symm.trans hbatch)
    have hstart : Machine.startBatch states' { r.machine.log.ctx with keyLocks := keyLocks }
          (r.machine.history ++ [⟨r.machine.log.dispatched, r.machine.log.erased, victims⟩])
        = Machine.startBatch states' { log.ctx with keyLocks := keyLocks }
          (r.machine.history ++ [⟨log.dispatched, log.erased, victims⟩]) := by
      rw [show r.machine.log.ctx = log.ctx from hctx,
        show r.machine.log.dispatched = log.dispatched from hdisp,
        show r.machine.log.erased = log.erased from herased]
    by_cases hempty : states' = []
    · -- no state is left, so the block is answered or its hash is asked for
      subst hempty
      rw [Machine.afterBatch, if_pos List.isEmpty_nil, hstart]
      unfold Machine.finish
      split_ifs with hstatic
      · exact .after (by simp)
          ⟨_, ⟨hnext, by simp [Machine.startBatch], rfl, rfl⟩, rfl, Or.inl ⟨hstatic, rfl⟩⟩ rfl
      · exact .after (by simp)
          ⟨by simpa using hstatic, rfl, _, hnext, by simp [Machine.startBatch], rfl, rfl⟩ rfl
    · rw [Machine.afterBatch, if_neg (by simp [hempty]), hstart]
      exact .batching hnext (fun hnil => absurd hnil hempty) (.start _ _ _) rfl

/-- A completed batch stays so, and nothing goes on from it again. -/
theorem Completed.party (staticCall : Bool) (h : Completed env executors r)
    (hstep : BatchRun.Step env executors r r') :
    Completed env executors r' ∧ r.continuation staticCall r' = [] := by
  obtain ⟨states, ctx, hd, hinv, hexecuted⟩ := h
  obtain ⟨hmachine, -⟩ := hinv.leftover hd hexecuted hstep
  refine ⟨⟨states, ctx, hd, hstep.inv hd hinv, ?_⟩, ?_⟩
  · show r'.machine.log.status.callbackExecuted = true
    rw [hmachine]
    exact hexecuted
  · rw [hinv.continuation hd hstep, if_neg]
    rintro ⟨hopen, -⟩
    rw [hexecuted] at hopen
    cases hopen

/-- The batch goes on, or is completed and followed by what `DMTExecute` does then. -/
theorem Current.party (hd : DistinctContexts states₀)
    (h : Current env executors staticCall states₀ ctx₀ r) (hphase : r.machine.phase = .batching)
    (hstep : BatchRun.Step env executors r r') :
    (r.continuation staticCall r' = [] ∧ Current env executors staticCall states₀ ctx₀ r') ∨
    ∃ next, r.continuation staticCall r' = [next] ∧
      Current env executors staticCall states₀ ctx₀ next ∧ Completed env executors r' := by
  cases h with
  | after hne => exact absurd hphase hne
  | @batching states ctx hreach hfirst hinv hopen =>
      have hdist := hreach.distinct hd
      have hinv' := hstep.inv hdist hinv
      rw [← hstep.frame.1] at hreach hfirst
      rw [hinv.continuation hdist hstep]
      rcases hexecuted : r'.status.callbackExecuted with _ | _
      · rw [if_neg (by simp)]
        exact Or.inl ⟨rfl, .batching hreach hfirst hinv' hexecuted⟩
      · rw [if_pos ⟨hopen, rfl⟩]
        exact Or.inr ⟨_, rfl, current_afterBatch hd hreach hfirst hinv' hexecuted,
          states, ctx, hdist, hinv', hexecuted⟩

theorem Completed.phase (h : Completed env executors r) : r.machine.phase = .batching := by
  obtain ⟨_, _, _, hinv, _⟩ := h
  exact hinv.phase

theorem Step.inv (hd : DistinctContexts states₀)
    (hstep : Step env staticCall executors batches batches')
    (h : Inv env executors staticCall states₀ ctx₀ batches) :
    Inv env executors staticCall states₀ ctx₀ batches' := by
  obtain _ | ⟨current, past⟩ := batches
  · exact h.elim
  obtain ⟨hcurrent, hpast⟩ := h
  have hset : ∀ {i : Nat} {p : BatchRun}, Completed env executors p →
      ∀ q ∈ past.set i p, Completed env executors q := by
    intro i p hp q hq
    rcases List.mem_or_eq_of_mem_set hq with hq | rfl
    · exact hpast q hq
    · exact hp
  cases hstep with
  | @party i r r' hi hphase hparty =>
      rcases i with _ | i
      · obtain rfl : current = r := by simpa using hi
        rcases hcurrent.party hd hphase hparty with ⟨hnone, hcurrent'⟩ |
          ⟨next, hnext, hcurrent', hcompleted⟩
        · rw [hnone]
          exact ⟨hcurrent', hpast⟩
        · rw [hnext]
          refine ⟨hcurrent', fun p hp => ?_⟩
          rcases List.mem_cons.mp hp with rfl | hp
          · exact hcompleted
          · exact hpast p hp
      · have hr : Completed env executors r := hpast r (List.mem_of_getElem? hi)
        obtain ⟨hr', hnone⟩ := hr.party staticCall hparty
        rw [hnone]
        exact ⟨hcurrent, hset hr'⟩
  | @fault i r n rest f hi hphase htodo hsending hfail =>
      rcases i with _ | i
      · obtain rfl : current = r := by simpa using hi
        refine ⟨?_, hpast⟩
        cases hcurrent with
        | after hne => exact absurd hphase hne
        | @batching states ctx hreach hfirst hinv hopen =>
            obtain ⟨log, hfault, hctx, hdisp⟩ :=
              hinv.mid.settled_fault (hreach.distinct hd) hphase htodo hfail
            refine .after (by simp) ?_ (hinv.once.trans (if_neg (by simp [hopen])))
            exact ⟨hinv.mid.receipts, states, ctx, log, hreach, hfirst, hctx, hdisp,
              Or.inl hfault⟩
      · -- the traversal of a completed batch has ended
        obtain ⟨states, ctx, hdist, hinv, hexecuted⟩ := hpast r (List.mem_of_getElem? hi)
        have hended := (hinv.ended (hinv.ready hexecuted).1).1
        rw [htodo] at hended
        cases hended
  | @hash i r answer hi hphase hanswer =>
      rcases i with _ | i
      · obtain rfl : current = r := by simpa using hi
        refine ⟨?_, hpast⟩
        cases hcurrent with
        | batching _ _ hinv =>
            rw [hinv.phase] at hphase
            cases hphase
        | after hne hexp hnone =>
            refine .after ?_ ?_ hnone
            · cases answer <;> simp [Machine.hashDone]
            · exact BcosScheduler.Step.explained hd (.hash hphase hanswer) hexp
      · have hr := (hpast r (List.mem_of_getElem? hi)).phase
        rw [hr] at hphase
        cases hphase

theorem Steps.inv (hd : DistinctContexts states₀)
    (h : Steps env staticCall executors (start states₀ ctx₀) batches) :
    Inv env executors staticCall states₀ ctx₀ batches := by
  induction h with
  | refl =>
      refine ⟨.batching .start (fun _ => rfl) (.start _ _ _) rfl, fun p hp => ?_⟩
      cases hp
  | tail _ hstep ih => exact hstep.inv hd ih

/-- The batch that runs now is explained by rounds, as if stored replies were counted. -/
theorem Current.explained (h : Current env executors staticCall states₀ ctx₀ r) :
    ∃ m, Explained env executors staticCall states₀ ctx₀ m ∧ r.machine.SameResults m ∧
      r.completions = [] := by
  cases h with
  | batching hreach hfirst hinv hopen =>
      exact ⟨r.machine.settled, explained_batching hinv.phase hreach hfirst hinv.mid,
        ⟨rfl, rfl, rfl, rfl, rfl⟩, hinv.once.trans (if_neg (by simp [hopen]))⟩
  | after _ hexp hnone => exact ⟨r.machine, hexp, ⟨rfl, rfl, rfl, rfl, rfl⟩, hnone⟩

/-- **Reply handlers may be taken to be atomic.**  In every interleaving of the
sender, the reply handlers and `checkBatch` of all batches, the latest batch is the
only one that was not completed, the others were completed once, and whoever
is left over in them changes neither the states nor the messages; and a run of the
machine, which takes a handler in one step, comes to the same batches, messages,
members, receipts and phase. -/
theorem interleaved_refines (hd : DistinctContexts states₀)
    (h : Steps env staticCall executors (start states₀ ctx₀) batches) :
    ∃ r past, batches = r :: past ∧
      (∃ m, Machine.Steps env staticCall executors (Machine.startBatch states₀ ctx₀ []) m ∧
        r.machine.SameResults m) ∧
      r.completions = [] ∧ ∀ p ∈ past, p.completions.length = 1 ∧
        ∀ p', BatchRun.Step env executors p p' →
          p'.machine = p.machine ∧ p'.completions = p.completions := by
  have hinv := Steps.inv hd h
  obtain _ | ⟨r, past⟩ := batches
  · exact hinv.elim
  obtain ⟨hcurrent, hpast⟩ := hinv
  obtain ⟨m, hexp, hsame, hnone⟩ := hcurrent.explained
  obtain ⟨m', hrun, hsame'⟩ := hexp.run hd
  refine ⟨r, past, rfl, ⟨m', hrun, hsame.trans hsame'⟩, hnone, fun p hp => ?_⟩
  obtain ⟨states, ctx, hdist, hcompleted, hexecuted⟩ := hpast p hp
  refine ⟨?_, fun p' hstep => hcompleted.leftover hdist hexecuted hstep⟩
  rw [hcompleted.once, if_pos hexecuted, List.length_singleton]

/-- The batches of two calls in the plain environment, under a schedule. -/
def plainBatches (reply : List (List ExecutionMessage) → ExecutionMessage → Reply)
    (schedule : List Move) : List BatchRun :=
  run (plainEnv.blockEnv (callsTo ["a", "b"])) false reply plainRoot
    (start (blockStates plainEnv (callsTo ["a", "b"])).1 (initialContext (callsTo ["a", "b"])))
    schedule

theorem plainBatches_steps (reply : List (List ExecutionMessage) → ExecutionMessage → Reply)
    (schedule : List Move) :
    Steps (plainEnv.blockEnv (callsTo ["a", "b"])) false (.ofFun reply plainRoot)
      (start (blockStates plainEnv (callsTo ["a", "b"])).1 (initialContext (callsTo ["a", "b"])))
      (plainBatches reply schedule) :=
  run_steps _ _ _ _ _ _

/-- The second handler wins the race with the sender, which is left over while the
next batch runs. -/
def overtaking : List Move :=
  [.visit, .send, .visit, .store 0, .count 0, .send, .store 1, .check 0, .allSended, .count 1,
    .checkSender, .check 1, .check 1, .checkSender, .check 1].map (.party 0) ++
  [.party 0 .visit, .party 1 .checkSender, .party 0 .visit, .party 0 .allSended,
    .party 0 .checkSender, .party 0 .checkSender, .party 0 .checkSender, .hash 0]

theorem plainBatches_overtaking :
    (plainBatches finishing overtaking).map (fun r => r.machine.phase)
      = [.finished (.success (some ⟨7, 9, 0⟩)), .batching, .batching] := by
  decide +kernel

theorem interleaved_refines_two_calls :
    ∃ m, Machine.Steps (plainEnv.blockEnv (callsTo ["a", "b"])) false (.ofFun finishing plainRoot)
        (dmtStart plainEnv (callsTo ["a", "b"])) m ∧
      m.phase = .finished (.success (some ⟨7, 9, 0⟩)) := by
  obtain ⟨r, past, heq, ⟨m, hrun, hsame⟩, -⟩ := interleaved_refines
    (distinct_blockStates plainEnv (callsTo ["a", "b"])) (plainBatches_steps finishing overtaking)
  have hphases := plainBatches_overtaking
  rw [heq, List.map_cons] at hphases
  exact ⟨m, hrun, hsame.phase.trans (List.cons.inj hphases).1⟩

end Interleaved

/-! ### What is left to do -/

/-- Steps of `checkBatch` that are left. -/
def CheckStage.rank : CheckStage → Nat
  | .called => 3
  | .allSended => 2
  | .counted => 1
  | .returned => 0

/-- Steps of a handler that are left, with that of the executor. -/
def Handler.rank (h : Handler) : Nat :=
  match h.stage with
  | .waiting => 5
  | .stored => 4
  | .checking stage => stage.rank

/-- Replacing an element by a smaller one lowers the sum. -/
theorem sum_set_lt {α : Type*} (f : α → Nat) {l : List α} {i : Nat} {a b : α}
    (h : l[i]? = some a) (hlt : f b < f a) : ((l.set i b).map f).sum < (l.map f).sum := by
  induction l generalizing i with
  | nil => simp at h
  | cons x l ih =>
      rcases i with _ | i
      · obtain rfl : x = a := by simpa using h
        simp only [List.set_cons_zero, List.map_cons, List.sum_cons]
        omega
      · have hrest := ih (i := i) (by simpa using h)
        simp only [List.set_cons_succ, List.map_cons, List.sum_cons]
        omega

namespace BatchRun

variable {r r' : BatchRun}

/-- Steps of the parties of a batch that are left: a node ahead may become a message,
and a message a handler. -/
def parties (r : BatchRun) : Nat :=
  7 * r.machine.todo.length + 6 * r.sending.toList.length + (r.handlers.map Handler.rank).sum +
    match r.sender with
    | none => 4
    | some stage => stage.rank

/-- Steps that are left before `DMTExecute` goes on. -/
def work (r : BatchRun) : Nat :=
  match r.machine.phase with
  | .batching => r.parties
  | .hashing => 1
  | .finished _ => 0

theorem checkBatch_rank (r : BatchRun) {stage : CheckStage} (hstage : stage ≠ .returned) :
    (r.checkBatch stage).2.rank < stage.rank := by
  cases stage with
  | returned => exact absurd rfl hstage
  | counted => exact Nat.zero_lt_one
  | _ =>
      unfold BatchRun.checkBatch
      dsimp only
      split_ifs <;> simp [CheckStage.rank]

/-- A step of `checkBatch` leaves traversal and handlers where they are. -/
theorem checkBatch_parties (r : BatchRun) (stage : CheckStage) :
    (r.checkBatch stage).1.parties = r.parties := by
  cases stage with
  | counted =>
      unfold BatchRun.checkBatch
      dsimp only
      split_ifs <;> rfl
  | _ => rfl

/-- A handler that moves on has less to do. -/
theorem parties_setStage {i : Nat} {d : Dispatch} {stage : HandlerStage}
    (hi : r.handlers[i]? = some ⟨d, stage⟩) (stage' : HandlerStage)
    (hlt : Handler.rank ⟨d, stage'⟩ < Handler.rank ⟨d, stage⟩) :
    (r.setStage i d stage').parties < r.parties := by
  have hsum := sum_set_lt Handler.rank hi hlt
  unfold parties setStage
  dsimp only
  omega

/-- **Every step of a party is one less to do.** -/
theorem Step.parties_lt (hstep : Step env executors r r') : r'.parties < r.parties := by
  cases hstep with
  | @visit n rest todo log cursor htodo hsending hstep =>
      have hrest : todo.length ≤ rest.length := by
        rcases traverseStep_rest hstep with rfl | rfl <;> simp
      have hone : ∀ o : Option Dispatch, o.toList.length ≤ 1 := by
        rintro (_ | d) <;> simp
      have hsending' := hone (log.dispatched.drop r.machine.log.dispatched.length).head?
      simp only [parties, visited, htodo, hsending, List.length_cons, Option.toList_none,
        List.length_nil]
      omega
  | @send d hsending =>
      simp only [parties, BatchRun.send, hsending, Option.toList_none, Option.toList_some,
        List.length_nil, List.length_singleton, List.map_append, List.map_cons, List.map_nil,
        List.sum_append, List.sum_cons, List.sum_nil, Handler.rank]
      omega
  | allSended htodo hsending hsender =>
      simp [parties, BatchRun.setAllSended, Machine.setAllSended, hsender, CheckStage.rank]
  | @store i d reply hi _ =>
      have hlt := parties_setStage hi .stored (by simp [Handler.rank])
      have heq : (r.store i d reply).parties = (r.setStage i d .stored).parties := by
        simp [parties, BatchRun.store, setStage, Machine.store]
      rw [heq]
      exact hlt
  | @count i d hi =>
      exact parties_setStage hi (.checking .called)
        (by simp [Handler.rank, CheckStage.rank])
  | @check i d stage hi hstage =>
      have hrank := r.checkBatch_rank hstage
      have hi' : (r.checkBatch stage).1.handlers[i]? = some ⟨d, .checking stage⟩ := by
        rw [(checkBatch_frame r stage).1]
        exact hi
      have hlt := parties_setStage hi' (.checking (r.checkBatch stage).2) hrank
      rw [r.checkBatch_parties stage] at hlt
      exact hlt
  | @checkSender stage hsender hstage =>
      have hrank := r.checkBatch_rank hstage
      have hframe := r.checkBatch_parties stage
      have hsame := (checkBatch_frame r stage).2.1
      simp only [parties, hsame, hsender] at hframe ⊢
      omega

/-- As long as a batch has not finished somebody has a step. -/
theorem exists_step (env : BlockEnv) (hanswers : executors.Answers) (hopen : ¬ r.Finished) :
    (∃ r', Step env executors r r') ∨ ∃ n rest f, r.machine.todo = n :: rest ∧
      r.sending = none ∧
      traverseStep (sendCallback env) n rest r.machine.log r.machine.cursor = .error f := by
  rcases hsending : r.sending with _ | d
  · rcases htodo : r.machine.todo with _ | ⟨n, rest⟩
    · rcases hsender : r.sender with _ | stage
      · exact Or.inl ⟨_, .allSended htodo hsending hsender⟩
      · by_cases hstage : stage = .returned
        · -- the sender has left, so it is a handler
          have hhandler : ∃ k ∈ r.handlers, k.stage ≠ .checking .returned := by
            by_contra hall
            refine hopen ⟨htodo, hsending, hstage ▸ hsender, fun k hk => ?_⟩
            by_contra hne
            exact hall ⟨k, hk, hne⟩
          obtain ⟨⟨d, stage'⟩, hk, hne⟩ := hhandler
          obtain ⟨i, hi⟩ := List.mem_iff_getElem?.mp hk
          cases stage' with
          | waiting =>
              obtain ⟨reply, hreply⟩ := hanswers.reply r.machine.sentBefore d.message
              exact Or.inl ⟨_, .store hi hreply⟩
          | stored => exact Or.inl ⟨_, .count hi⟩
          | checking stage' => exact Or.inl ⟨_, .check hi fun heq => hne (heq ▸ rfl)⟩
        · exact Or.inl ⟨_, .checkSender hsender hstage⟩
    · rcases hvisit : traverseStep (sendCallback env) n rest r.machine.log r.machine.cursor with
        f | ⟨log, cursor, todo⟩
      · exact Or.inr ⟨n, rest, f, rfl, rfl, hvisit⟩
      · exact Or.inl ⟨_, .visit htodo hsending hvisit⟩
  · exact Or.inl ⟨_, .send hsending⟩

end BatchRun

namespace Interleaved

variable {r r' : BatchRun} {past batches batches' : List BatchRun} {limit base : Nat}

/-- The batches `DMTExecute` has gone on from. -/
def completedBatches : List BatchRun → Nat
  | [] => 0
  | r :: _ => r.machine.history.length

/-- Steps of all parties that are left. -/
def work (batches : List BatchRun) : Nat := (batches.map BatchRun.work).sum

/-- A new batch was begun, or less is left to do. -/
def Lowers (batches batches' : List BatchRun) : Prop :=
  completedBatches batches' = completedBatches batches + 1 ∨
    completedBatches batches' = completedBatches batches ∧ work batches' < work batches

/-- One batch moves and nothing goes on. -/
theorem lowers_set {i : Nat} (hi : batches[i]? = some r)
    (hhistory : r'.machine.history = r.machine.history) (hlt : r'.work < r.work) :
    Lowers batches (batches.set i r') := by
  refine Or.inr ⟨?_, sum_set_lt BatchRun.work hi hlt⟩
  obtain _ | ⟨current, past⟩ := batches
  · rfl
  · rcases i with _ | i
    · obtain rfl : current = r := by simpa using hi
      exact congrArg List.length hhistory
    · rfl

/-- From a completed batch `DMTExecute` begins another one, or ends. -/
theorem afterBatch_history (staticCall : Bool) (m : Machine) (e : BatchEnd) :
    (m.afterBatch staticCall e).history.length = m.history.length + 1 ∨
      (m.afterBatch staticCall e).history = m.history ∧
        (m.afterBatch staticCall e).Ended := by
  rcases e with e | f | ⟨states, keyLocks, victims⟩
  · exact Or.inr ⟨rfl, _, rfl⟩
  · exact Or.inr ⟨rfl, _, rfl⟩
  · left
    simp only [Machine.afterBatch, Machine.finish]
    split_ifs <;> simp [Machine.startBatch]

theorem work_of_ended (h : r.machine.Ended) : r.work = 0 := by
  obtain ⟨outcome, hphase⟩ := h
  rw [BatchRun.work, hphase]

/-- The latest batch moves, and `DMTExecute` goes on from it. -/
theorem lowers_next {next : BatchRun} (hlt : r'.work < r.work)
    (hnext : next.machine.history.length = r.machine.history.length + 1 ∨
      next.machine.history = r.machine.history ∧ next.machine.Ended) :
    Lowers (r :: past) (next :: r' :: past) := by
  rcases hnext with hnext | ⟨hsame, hended⟩
  · exact Or.inl hnext
  · refine Or.inr ⟨congrArg List.length hsame, ?_⟩
    simp only [work, List.map_cons, List.sum_cons, work_of_ended hended]
    omega

theorem party_work (hphase : r.machine.phase = .batching)
    (hstep : BatchRun.Step env executors r r') : r'.work < r.work := by
  rw [BatchRun.work, BatchRun.work, hstep.frame.2, hphase]
  exact hstep.parties_lt

/-- **Every step lowers the measure.** -/
theorem Step.lowers (hd : DistinctContexts states₀)
    (hstep : Step env staticCall executors batches batches')
    (h : Inv env executors staticCall states₀ ctx₀ batches) : Lowers batches batches' := by
  cases hstep with
  | @party i r r' hi hphase hparty =>
      have hset := lowers_set hi hparty.frame.1 (party_work hphase hparty)
      obtain _ | ⟨current, past⟩ := batches
      · exact h.elim
      obtain ⟨hcurrent, hpast⟩ := h
      rcases i with _ | i
      · obtain rfl : current = r := by simpa using hi
        cases hcurrent with
        | after hne => exact absurd hphase hne
        | @batching states ctx hreach _ hinv _ =>
            rw [hinv.continuation (hreach.distinct hd) hparty]
            split_ifs
            · exact lowers_next (party_work hphase hparty)
                (hparty.frame.1 ▸ afterBatch_history staticCall r'.machine r'.batchEnd)
            · exact hset
      · have hr := hpast r (List.mem_of_getElem? hi)
        rw [(hr.party staticCall hparty).2]
        exact hset
  | @fault i r n rest f hi hphase htodo hsending hfail =>
      refine lowers_set hi rfl ?_
      show 0 < r.work
      simp only [BatchRun.work, hphase, BatchRun.parties, htodo, List.length_cons]
      omega
  | @hash i r answer hi hphase hanswer =>
      have hended : (r.machine.hashDone env answer).Ended := by
        cases answer <;> exact ⟨_, rfl⟩
      refine lowers_set hi ?_ ?_
      · cases answer <;> rfl
      · rw [work_of_ended hended, BatchRun.work, hphase]
        exact Nat.zero_lt_one

/-- `DMTExecute` has ended. -/
def Ended : List BatchRun → Prop
  | [] => False
  | r :: _ => r.machine.Ended

/-- Until the end there is a step. -/
theorem Inv.exists_step (hd : DistinctContexts states₀) (hanswers : executors.Answers)
    (h : Inv env executors staticCall states₀ ctx₀ batches) (hopen : ¬ Ended batches) :
    ∃ batches', Step env staticCall executors batches batches' := by
  obtain _ | ⟨r, past⟩ := batches
  · exact h.elim
  obtain ⟨hcurrent, -⟩ := h
  cases hcurrent with
  | @batching states ctx hreach hfirst hinv hrunning =>
      -- if nobody had a step, somebody would have completed the batch
      have hunfinished : ¬ r.Finished := fun hfin => by
        have hexecuted := hinv.executed_of_finished (hreach.distinct hd) hfin
        rw [hrunning] at hexecuted
        cases hexecuted
      rcases BatchRun.exists_step env hanswers hunfinished with ⟨r', hparty⟩ |
        ⟨n, rest, f, htodo, hsending, hfail⟩
      · exact ⟨_, @Step.party _ _ _ _ 0 _ _ rfl hinv.phase hparty⟩
      · exact ⟨_, @Step.fault _ _ _ _ 0 _ _ _ _ rfl hinv.phase htodo hsending hfail⟩
  | after hne =>
      rcases hphase : r.machine.phase with _ | _ | outcome
      · exact absurd hphase hne
      · obtain ⟨answer, hanswer⟩ := hanswers.hash r.machine.sentBefore
        exact ⟨_, @Step.hash _ _ _ _ 0 _ _ rfl hphase hanswer⟩
      · exact absurd ⟨outcome, hphase⟩ hopen

/-- The latest batch has called back, or has thrown as a machine does. -/
def EndedBy (executors : Executors) : List BatchRun → Prop
  | [] => False
  | r :: _ => r.machine.EndedBy executors

theorem Ended.endedBy {env : ExecuteEnv} {block : Block} (hended : Ended batches)
    (hkeeps : executors.KeepsFrame) (hstart : env.startContextID = 0)
    (h : Steps (env.blockEnv block) env.staticCall executors
      (start (blockStates env block).1 (initialContext block)) batches) :
    EndedBy executors batches := by
  have hd := distinct_blockStates env block
  have hinv := Steps.inv hd h
  obtain _ | ⟨r, past⟩ := batches
  · exact hended.elim
  · obtain ⟨m, hexp, hsame, -⟩ := hinv.1.explained
    obtain ⟨m', hrun, hsame'⟩ := hexp.run hd
    obtain ⟨outcome, hphase⟩ := hended
    have hresults := hsame.trans hsame'
    apply hresults.endedBy
    exact Machine.Ended.endedBy ⟨outcome, hresults.phase.trans hphase⟩ hkeeps hstart hrun

/-- Until the end there is a step, and every step lowers the work. -/
theorem inevitable_ended (hkeeps : executors.KeepsFrame) (hsettles : executors.Settles limit)
    (hanswers : executors.Answers) {env : ExecuteEnv} (hstart : env.startContextID = 0)
    (block : Block) (h : Steps (env.blockEnv block) env.staticCall executors
      (start (blockStates env block).1 (initialContext block)) batches) :
    Inevitable (Step (env.blockEnv block) env.staticCall executors) Ended batches := by
  have hd := distinct_blockStates env block
  have h₀ := frameState_blockStates hstart block
  have hbase : ∀ n ∈ (blockStates env block).1, n.2.callStack.length ≤ 0 := fun n hn => by
    rw [(blockStates_fresh env block n hn).callStack, List.length_nil]
  let bound := 2 * messageBound (blockStates env block).1.length limit 0 + 1
  apply Inevitable.of_measure
    (fun batches => (toLex (bound - completedBatches batches, work batches) : ℕ ×ₗ ℕ))
    (I := Inv (env.blockEnv block) executors env.staticCall (blockStates env block).1
      (initialContext block))
  · intro batches batches' hinv hstep
    have hinv' := hstep.inv hd hinv
    refine Or.inr ⟨hinv', Prod.Lex.toLex_lt_toLex.mpr ?_⟩
    have hle : completedBatches batches' ≤ bound := by
      obtain _ | ⟨r, past⟩ := batches'
      · exact hinv'.elim
      obtain ⟨m, hexp, hsame, -⟩ := hinv'.1.explained
      obtain ⟨_, _, hreach⟩ := hexp.reaches
      rw [completedBatches, ← hsame.history]
      exact (hreach.length_le hd h₀ hkeeps hsettles hbase).2
    rcases hstep.lowers hd hinv with hnext | ⟨hsame, hless⟩
    · exact Or.inl (by omega)
    · exact Or.inr ⟨by rw [hsame], hless⟩
  · exact fun batches hinv hopen => hinv.exists_step hd hanswers hopen
  · exact Steps.inv hd h

/-- **No interleaving goes on for ever or gets stuck.**  With executors that answer every
message, keep context and sequence number, and let frames only return once `limit`
messages of their transaction were sent, whatever order the sender, the handlers and
`checkBatch` of all batches move in, `DMTExecute` of a block calls back, or is left by the
exception of `batchAcquireKeyLock`; the latter takes executors that do not keep to the
lock protocol, or an address that is not new. -/
theorem interleaved_ends (hkeeps : executors.KeepsFrame) (hsettles : executors.Settles limit)
    (hanswers : executors.Answers) {env : ExecuteEnv} (hstart : env.startContextID = 0)
    (block : Block) (h : Steps (env.blockEnv block) env.staticCall executors
      (start (blockStates env block).1 (initialContext block)) batches) :
    Inevitable (Step (env.blockEnv block) env.staticCall executors) (EndedBy executors)
      batches := by
  have hended := (inevitable_ended hkeeps hsettles hanswers hstart block h).with_invariant
    (I := Steps (env.blockEnv block) env.staticCall executors
      (start (blockStates env block).1 (initialContext block)))
    h fun _ _ hrun hstep => hrun.tail hstep
  exact hended.mono fun batches hended => hended.1.endedBy hkeeps hstart hended.2

/-- Two transactions that call on, the first batch overtaken by its sender. -/
theorem interleaved_ends_two_calls :
    Inevitable (Step (plainEnv.blockEnv (callsTo ["a", "b"])) false (.ofFun (bouncing 2) plainRoot))
      (EndedBy (.ofFun (bouncing 2) plainRoot)) (plainBatches (bouncing 2) overtaking) :=
  interleaved_ends (bouncing_keepsFrame 2) (bouncing_settles 2) (ofFun_answers _ _) rfl _
    (plainBatches_steps (bouncing 2) overtaking)

end Interleaved

end BcosScheduler
