/-
BcosScheduler/TwinRuns.lean

Runs of `DMTExecute` over twins.

Two machines stand alike (`MachineTwin`) if the nodes behind the cursor and the
nodes ahead are twins and the rest, the messages of the batches in particular,
is equal.  Every step of the one is matched by a step of the other that leaves
them alike: the sending traversal makes the same of twins, a reply is written to
a transaction that has been sent, whose states are the same, and the passes at the
end of a batch leave twins.  So the runs follow each other (`twins_bisimulation`).
-/
import BcosScheduler.Twins
import BcosScheduler.Lib.Bisimulation

namespace BcosScheduler

variable {env : BlockEnv} {executors : Executors} {staticCall : Bool}
  {states₀ nodes₁ nodes₂ rest₁ rest₂ todo₁ todo₂ : List Node} {ctx₀ : SendContext}
  {log₁ log₂ : SendLog} {c₁ c₂ : Cursor} {n k : Node} {sent : List ContextID} {m m' k' : Machine}

/-! ### The sending traversal -/

/-- The traversals stand at twins, after batches that sent to `before`. -/
structure StopTwin (before : List ContextID) (log₁ : SendLog) (c₁ : Cursor) (todo₁ : List Node)
    (log₂ : SendLog) (c₂ : Cursor) (todo₂ : List Node) : Prop where
  visited : List.Forall₂ (Twin (before ++ log₁.sentTo)) c₁.visited c₂.visited
  todo : List.Forall₂ (Twin (before ++ log₁.sentTo)) todo₁ todo₂
  bound : c₁.bound = c₂.bound
  log : SameLog log₁ log₂

theorem StopTwin.states (h : StopTwin sent log₁ c₁ todo₁ log₂ c₂ todo₂) :
    List.Forall₂ (Twin (sent ++ log₁.sentTo)) (c₁.visited ++ todo₁) (c₂.visited ++ todo₂) :=
  List.rel_append h.visited h.todo

/-- Twins stay twins while others are sent to. -/
theorem twins_mono {sent' : List ContextID} {i : ContextID}
    (h : List.Forall₂ (Twin sent) nodes₁ nodes₂) (hsent : ∀ j ∈ sent', j ∈ sent ∨ j = i)
    (hi : i ∉ contexts nodes₁) : List.Forall₂ (Twin sent') nodes₁ nodes₂ := by
  induction h with
  | nil => exact .nil
  | @cons a b l₁ l₂ hab _ ih =>
      simp only [contexts, List.map_cons, List.mem_cons, not_or] at hi
      refine .cons (hab.mono fun hmem => ?_) (ih hi.2)
      rcases hsent _ hmem with hold | heq
      · exact hold
      · exact absurd heq.symm hi.1

/-- One turn of the two traversals. -/
theorem StopTwin.step (env : BlockEnv)
    (h : StopTwin sent log₁ c₁ (n :: rest₁) log₂ c₂ (k :: rest₂))
    (hnodup : (contexts c₁.visited ++ contexts (n :: rest₁)).Nodup) :
    (∃ f, traverseStep (sendCallback env) n rest₁ log₁ c₁ = .error f ∧
      traverseStep (sendCallback env) k rest₂ log₂ c₂ = .error f) ∨
    ∃ log₁' c₁' todo₁' log₂' c₂' todo₂',
      traverseStep (sendCallback env) n rest₁ log₁ c₁ = .ok (log₁', c₁', todo₁') ∧
      traverseStep (sendCallback env) k rest₂ log₂ c₂ = .ok (log₂', c₂', todo₂') ∧
      StopTwin sent log₁' c₁' todo₁' log₂' c₂' todo₂' := by
  obtain ⟨hnk, hrest⟩ := List.forall₂_cons.mp h.todo
  have hjumps : c₂.jumps k = c₁.jumps n := by
    unfold Cursor.jumps
    rw [h.bound, hnk.key]
  rcases hjump : c₁.jumps n with _ | _
  · have htwin := sendCallback_twin env h.log hnk
    generalize hr₁ : sendCallback env log₁ n.2 = r₁ at htwin
    generalize hr₂ : sendCallback env log₂ k.2 = r₂ at htwin
    cases htwin with
    | error f =>
        refine Or.inl ⟨f, ?_, ?_⟩
        · simp [traverseStep, hjump, hr₁]
        · simp [traverseStep, hjumps, hjump, hr₂]
    | @ok hint log₁' log₂' s t hlog hst hupd hsent =>
        -- the visited context is not among the other ones
        obtain ⟨-, hahead, hdisj⟩ := List.nodup_append.mp hnodup
        have hbehind : n.2.contextID ∉ contexts c₁.visited := fun hmem =>
          hdisj _ hmem _ (List.mem_cons_self ..) rfl
        have hsent' : ∀ i ∈ sent ++ log₁'.sentTo,
            i ∈ sent ++ log₁.sentTo ∨ i = n.2.contextID := by
          intro i hi
          rcases List.mem_append.mp hi with hi | hi
          · exact Or.inl (List.mem_append_left _ hi)
          · exact (hsent i hi).imp_left (List.mem_append_right _)
        have hvisited := twins_mono h.visited hsent' hbehind
        have hrest' := twins_mono hrest hsent' (List.nodup_cons.mp hahead).1
        simp only [traverseStep, hjumps, hjump, hr₁, hr₂, Bool.false_eq_true, if_false]
        refine Or.inr ⟨_, _, _, _, _, _, rfl, rfl, ?_⟩
        cases hint with
        | PASS => exact ⟨List.rel_append hvisited (.cons hst .nil), hrest', h.bound, hlog⟩
        | DELETE => exact ⟨hvisited, hrest', h.bound, hlog⟩
        | SKIP =>
            refine ⟨List.rel_append hvisited (.cons hst .nil), hrest', ?_, hlog⟩
            simp only [Cursor.advance, hnk.key]
        | UPDATE => exact absurd rfl hupd
        | END => exact ⟨List.rel_append hvisited (.cons hst hrest'), .nil, h.bound, hlog⟩
  · simp only [traverseStep, hjumps, hjump, if_true]
    exact Or.inr ⟨_, _, _, _, _, _, rfl, rfl, List.rel_append h.visited (.cons hnk .nil), hrest,
      h.bound, h.log⟩

/-! ### Machines -/

/-- The contexts of the messages of the completed batches. -/
def Machine.sentContexts (m : Machine) : List ContextID :=
  m.history.flatMap fun b => b.dispatched.map Dispatch.contextID

/-- The machines stand alike. -/
structure MachineTwin (m k : Machine) : Prop where
  stop : StopTwin m.sentContexts m.log m.cursor m.todo k.log k.cursor k.todo
  replied : m.replied = k.replied
  history : m.history.map BatchLog.dispatched = k.history.map BatchLog.dispatched
  receipts : m.receipts = k.receipts
  phase : m.phase = k.phase
  quiet : Quiet m.log m.cursor
  ascending : OrderedMap.Ascending m.states

namespace MachineTwin

variable {k : Machine}

theorem start {ctx : SendContext} {history₁ history₂ : List BatchLog}
    (h : List.Forall₂ (Twin (history₁.flatMap fun b => b.dispatched.map Dispatch.contextID))
      nodes₁ nodes₂) (hasc : OrderedMap.Ascending nodes₁)
    (hhistory : history₁.map BatchLog.dispatched = history₂.map BatchLog.dispatched) :
    MachineTwin (Machine.startBatch nodes₁ ctx history₁)
      (Machine.startBatch nodes₂ ctx history₂) where
  stop := by
    refine ⟨.nil, ?_, rfl, rfl, rfl, rfl⟩
    exact h.imp fun _ _ hab => hab.mono (by simp [Machine.startBatch, Machine.sentContexts,
      SendLog.sentTo])
  replied := rfl
  history := hhistory
  receipts := rfl
  phase := rfl
  quiet := fun _ _ => ⟨rfl, rfl, by simp [Machine.startBatch]⟩
  ascending := hasc

theorem withPhase (h : MachineTwin m k) {receipts : List (Option Receipt)} {phase : Phase} :
    MachineTwin { m with receipts := receipts, phase := phase }
      { k with receipts := receipts, phase := phase } :=
  ⟨h.stop, h.replied, h.history, rfl, rfl, h.quiet, h.ascending⟩

theorem sentBefore (h : MachineTwin m k) : m.sentBefore = k.sentBefore := by
  have hmap := congrArg (List.map (List.map Dispatch.message)) h.history
  simpa only [Machine.sentBefore, List.map_map, Function.comp_def] using hmap

theorem visit (h : MachineTwin m k) (hfacts : BatchFacts m) {a b : Node}
    (htodo₁ : m.todo = a :: rest₁) (htodo₂ : k.todo = b :: rest₂) :
    MachineTwin (m.visit env a rest₁) (k.visit env b rest₂) := by
  have hstop := h.stop
  have hnodup := hfacts.nodup
  rw [htodo₁, htodo₂] at hstop
  rw [htodo₁] at hnodup
  rcases hstop.step env hnodup with ⟨f, h₁, h₂⟩ |
    ⟨log₁, c₁, todo₁, log₂, c₂, todo₂, h₁, h₂, hstop'⟩
  · simp only [Machine.visit, h₁, h₂]
    exact ⟨h.stop, h.replied, h.history, h.receipts, rfl, h.quiet, h.ascending⟩
  · simp only [Machine.visit, h₁, h₂]
    refine ⟨hstop', h.replied, h.history, h.receipts, h.phase, h.quiet.step h₁, ?_⟩
    refine OrderedMap.Ascending.of_keys h.ascending ?_
    rw [Machine.states, Machine.states, htodo₁]
    exact traverseStep_keys h₁

theorem setAllSended (h : MachineTwin m k) : MachineTwin m.setAllSended k.setAllSended where
  stop := by
    refine ⟨h.stop.visited, h.stop.todo, h.stop.bound, h.stop.log.ctx, ?_, h.stop.log.dispatched⟩
    simp only [Machine.setAllSended, h.stop.log.status]
  replied := h.replied
  history := h.history
  receipts := h.receipts
  phase := h.phase
  quiet := h.quiet
  ascending := h.ascending

end MachineTwin

/-! ### Replies -/

/-- Who was sent to gets the reply in both machines. -/
theorem Twin.storeAt {i : ContextID} (h : Twin sent n k) (hi : i ∈ sent) (reply : Reply) :
    Twin sent (Machine.storeAt i reply n) (Machine.storeAt i reply k) := by
  unfold Machine.storeAt
  rw [h.contextID]
  split_ifs with hctx
  · cases h with
    | same key s flag =>
        have hflagged : storeReply reply (s.flagged flag) = (storeReply reply s).flagged flag := by
          cases reply <;> rfl
        rw [hflagged]
        exact .same key _ flag
    | sentBack _ hnot => exact absurd (hctx ▸ hi) hnot
  · exact h

theorem twins_storeAt {i : ContextID} (h : List.Forall₂ (Twin sent) nodes₁ nodes₂) (hi : i ∈ sent)
    (reply : Reply) : List.Forall₂ (Twin sent) (nodes₁.map (Machine.storeAt i reply))
      (nodes₂.map (Machine.storeAt i reply)) := by
  rw [List.forall₂_map_left_iff, List.forall₂_map_right_iff]
  exact h.imp fun _ _ hnk => hnk.storeAt hi reply

theorem MachineTwin.receive {k : Machine} (h : MachineTwin m k) {d : Dispatch}
    (hd : d ∈ m.log.dispatched) (reply : Reply) :
    MachineTwin (m.receive d.contextID reply) (k.receive d.contextID reply) where
  stop := by
    have hsent : d.contextID ∈ m.sentContexts ++ m.log.sentTo :=
      List.mem_append_right _ (List.mem_map.mpr ⟨d, hd, rfl⟩)
    refine ⟨twins_storeAt h.stop.visited hsent reply, twins_storeAt h.stop.todo hsent reply,
      h.stop.bound, h.stop.log.ctx, ?_, h.stop.log.dispatched⟩
    simp only [Machine.receive, h.stop.log.status]
  replied := by simp only [Machine.receive, h.replied]
  history := h.history
  receipts := h.receipts
  phase := h.phase
  quiet := fun hnone => by
    rw [show m.log.dispatched = [] from hnone] at hd
    cases hd
  ascending := by
    rw [Machine.states_receive]
    refine h.ascending.of_keys ?_
    rw [List.map_map]
    have hkeys : Prod.fst ∘ Machine.storeAt d.contextID reply = Prod.fst := by
      funext n
      unfold Machine.storeAt
      simp only [Function.comp_apply]
      split_ifs <;> rfl
    rw [hkeys]

/-! ### The end of a batch -/

/-- Twin passes end alike. -/
inductive EndTwin (sent : List ContextID) : BatchEnd → BatchEnd → Prop
  | error (e : Error) : EndTwin sent (.error e) (.error e)
  | fault (f : Fault) : EndTwin sent (.fault f) (.fault f)
  | next {nodes₁ nodes₂ : List Node} {keyLocks : GraphKeyLocks} {victims : List ContextID} :
      List.Forall₂ (Twin sent) nodes₁ nodes₂ → OrderedMap.Ascending nodes₁ →
      EndTwin sent (.next nodes₁ keyLocks victims) (.next nodes₂ keyLocks victims)

/-- The twin of a map with distinct contexts has distinct contexts. -/
theorem twins_distinct (h : List.Forall₂ (Twin sent) nodes₁ nodes₂)
    (hd : DistinctContexts nodes₁) : DistinctContexts nodes₂ := by
  have htags : contexts nodes₂ = contexts nodes₁ ∧
      (KeyedByContext nodes₁ → KeyedByContext nodes₂) := by
    clear hd
    induction h with
    | nil => exact ⟨rfl, id⟩
    | cons hnk _ ih =>
        refine ⟨?_, fun hkeyed => List.forall_mem_cons.mpr ⟨?_, ?_⟩⟩
        · simp only [contexts, List.map_cons] at ih ⊢
          rw [hnk.contextID, ih.1]
        · rw [← hnk.key, ← hnk.contextID]
          exact hkeyed _ (List.mem_cons_self ..)
        · exact ih.2 fun a ha => hkeyed a (List.mem_cons_of_mem _ ha)
  exact ⟨htags.2 hd.keyed, htags.1 ▸ hd.nodup⟩

theorem MachineTwin.endBatch {k : Machine} (h : MachineTwin m k) (hfacts : BatchFacts m)
    (hall : m.log.status.allSended = true) :
    EndTwin (m.sentContexts ++ m.log.sentTo)
      (endBatch m.log.status m.states m.log.ctx.keyLocks)
      (endBatch k.log.status k.states k.log.ctx.keyLocks) := by
  have hstates : List.Forall₂ (Twin (m.sentContexts ++ m.log.sentTo)) m.states k.states :=
    h.stop.states
  have hdistinct := twins_distinct hstates hfacts.distinct
  have hnil : m.states ≠ [] ↔ k.states ≠ [] := by
    rw [← List.length_pos_iff, ← List.length_pos_iff, hstates.length_eq]
  unfold BcosScheduler.endBatch
  rw [← h.stop.log.ctx, ← h.stop.log.status]
  simp only [← hnil]
  split_ifs with herror htotal
  · exact .error _
  · -- nothing was sent: everybody waits for a key
    have hnone : m.log.dispatched = [] := by
      have hlength := hfacts.total
      rw [htotal.2] at hlength
      exact List.eq_nil_of_length_eq_zero hlength.symm
    have hwaits := (h.quiet hnone (by omega)).2.2
    have hsame := sameNodes_of_waiting hstates (fun a ha => by
      rw [Machine.states, hfacts.ended hall, List.append_nil] at ha
      exact hwaits a ha)
    rcases runPass_twin SameNode.key (fun d _ _ hab => deadLockCallback_twin d hab)
      deadLockCallback_contextID deadLockCallback_updates hsame h.ascending hfacts.distinct
      hdistinct m.log.ctx.keyLocks with
      ⟨f, h₁, h₂⟩ | ⟨s₁, s₂, keyLocks, victims, h₁, h₂, hR, hasc⟩
    · rw [h₁, h₂]
      exact .fault f
    · rw [h₁, h₂]
      exact .next (hR.imp fun _ _ hab => hab.twin) hasc
  · rcases runPass_twin Twin.key (fun d _ _ hab => keyLockCallback_twin d hab)
      keyLockCallback_contextID keyLockCallback_updates hstates h.ascending hfacts.distinct
      hdistinct m.log.ctx.keyLocks with
      ⟨f, h₁, h₂⟩ | ⟨s₁, s₂, keyLocks, victims, h₁, h₂, hR, hasc⟩
    · rw [h₁, h₂]
      exact .fault f
    · rw [h₁, h₂]
      exact .next hR hasc

theorem MachineTwin.finish {k : Machine} (h : MachineTwin m k) (staticCall : Bool) :
    MachineTwin (m.finish staticCall) (k.finish staticCall) := by
  unfold Machine.finish
  split_ifs
  · rw [h.receipts, h.stop.log.ctx]
    exact h.withPhase
  · exact ⟨h.stop, h.replied, h.history, h.receipts, rfl, h.quiet, h.ascending⟩

theorem MachineTwin.checkBatch {k : Machine} (h : MachineTwin m k) (hfacts : BatchFacts m)
    (staticCall : Bool) : MachineTwin (m.checkBatch staticCall) (k.checkBatch staticCall) := by
  unfold Machine.checkBatch
  rw [← h.stop.log.status]
  split_ifs with hcomplete
  · have hend := h.endBatch hfacts hcomplete.1
    rw [← h.stop.log.status] at hend
    have hcalled : MachineTwin
        { m with log := { m.log with status := { m.log.status with callbackExecuted := true } } }
        { k with log := { k.log with status := { m.log.status with callbackExecuted := true } } } :=
      ⟨⟨h.stop.visited, h.stop.todo, h.stop.bound, h.stop.log.ctx, rfl, h.stop.log.dispatched⟩,
        h.replied, h.history, h.receipts, h.phase, h.quiet, h.ascending⟩
    generalize BcosScheduler.endBatch m.log.status m.states m.log.ctx.keyLocks = end₁ at hend
    generalize BcosScheduler.endBatch m.log.status k.states k.log.ctx.keyLocks = end₂ at hend
    cases hend with
    | error e =>
        exact ⟨hcalled.stop, h.replied, h.history, h.receipts, rfl, hcalled.quiet, h.ascending⟩
    | fault f =>
        exact ⟨hcalled.stop, h.replied, h.history, h.receipts, rfl, hcalled.quiet, h.ascending⟩
    | @next nodes₁ nodes₂ keyLocks victims htwins hasc =>
        have hempty : nodes₂.isEmpty = nodes₁.isEmpty := by
          cases htwins <;> rfl
        have hstart : MachineTwin
            (Machine.startBatch nodes₁ { m.log.ctx with keyLocks := keyLocks }
              (m.history ++ [⟨m.log.dispatched, m.log.erased, victims⟩]))
            (Machine.startBatch nodes₂ { k.log.ctx with keyLocks := keyLocks }
              (k.history ++ [⟨k.log.dispatched, k.log.erased, victims⟩])) := by
          rw [← h.stop.log.ctx]
          refine MachineTwin.start ?_ hasc ?_
          · simpa [Machine.sentContexts, SendLog.sentTo] using htwins
          · simp only [List.map_append, h.history, List.map_cons, h.stop.log.dispatched, List.map_nil]
        simp only [Machine.afterBatch, hempty]
        split_ifs
        · exact hstart.finish staticCall
        · exact hstart
  · exact h

/-! ### Steps -/

theorem MachineTwin.hashDone {k : Machine} (h : MachineTwin m k) (answer : Except Error H256) :
    MachineTwin (m.hashDone env answer) (k.hashDone env answer) := by
  cases answer with
  | error e => exact ⟨h.stop, h.replied, h.history, h.receipts, rfl, h.quiet, h.ascending⟩
  | ok hash =>
      simp only [Machine.hashDone]
      rw [h.receipts, h.stop.log.ctx]
      exact h.withPhase

/-- The machines stand alike, the first one in a run from `states₀`. -/
structure Follows (env : BlockEnv) (executors : Executors) (staticCall : Bool)
    (states₀ : List Node) (ctx₀ : SendContext) (m k : Machine) : Prop where
  twin : MachineTwin m k
  explained : Explained env executors staticCall states₀ ctx₀ m

theorem MachineTwin.todo_nil {k : Machine} (h : MachineTwin m k) : m.todo = [] ↔ k.todo = [] := by
  rw [← List.length_eq_zero_iff, ← List.length_eq_zero_iff, h.stop.todo.length_eq]

/-- A step of the first machine is matched. -/
theorem Follows.forth (hd : DistinctContexts states₀) {k : Machine}
    (h : Follows env executors staticCall states₀ ctx₀ m k)
    (hstep : Machine.Step env staticCall executors m m') :
    ∃ k', Machine.Step env staticCall executors k k' ∧
      Follows env executors staticCall states₀ ctx₀ m' k' := by
  have hnext := Step.explained hd hstep h.explained
  cases hstep with
  | @visit n rest hphase htodo =>
      obtain ⟨states, ctx, hdistinct, hmid⟩ := h.explained.facts hd hphase
      have htwins := h.twin.stop.todo
      rw [htodo] at htwins
      obtain ⟨b, rest', -, -, htodo'⟩ := List.forall₂_cons_left_iff.mp htwins
      exact ⟨_, .visit (h.twin.phase ▸ hphase) htodo',
        h.twin.visit (hmid.facts hdistinct) htodo htodo', hnext⟩
  | allSended hphase htodo =>
      exact ⟨_, .allSended (h.twin.phase ▸ hphase) (h.twin.todo_nil.mp htodo),
        h.twin.setAllSended, hnext⟩
  | check hphase htodo hall =>
      obtain ⟨states, ctx, hdistinct, hmid⟩ := h.explained.facts hd hphase
      exact ⟨_, .check (h.twin.phase ▸ hphase) (h.twin.todo_nil.mp htodo)
        (h.twin.stop.log.status ▸ hall), h.twin.checkBatch (hmid.facts hdistinct) _, hnext⟩
  | @reply d reply hphase hdisp hnew hreply =>
      obtain ⟨states, ctx, hdistinct, hmid⟩ := h.explained.facts hd hphase
      have hmid' := hmid.receive hdistinct hdisp hnew hreply
      refine ⟨_, .reply (h.twin.phase ▸ hphase) (h.twin.stop.log.dispatched ▸ hdisp)
        (h.twin.replied ▸ hnew) (h.twin.sentBefore ▸ hreply), ?_, hnext⟩
      exact (h.twin.receive hdisp reply).checkBatch (hmid'.facts hdistinct) _
  | hash hphase hanswer =>
      exact ⟨_, .hash (h.twin.phase ▸ hphase) (h.twin.sentBefore ▸ hanswer),
        h.twin.hashDone _, hnext⟩

/-- A step of the second machine is the match of a step of the first one. -/
theorem Follows.back (hd : DistinctContexts states₀) {k : Machine}
    (h : Follows env executors staticCall states₀ ctx₀ m k)
    (hstep : Machine.Step env staticCall executors k k') :
    ∃ m', Machine.Step env staticCall executors m m' ∧
      Follows env executors staticCall states₀ ctx₀ m' k' := by
  -- the facts of the batch and the next explanation are about the first machine
  have hfollow : ∀ {m'}, Machine.Step env staticCall executors m m' → MachineTwin m' k' →
      ∃ m', Machine.Step env staticCall executors m m' ∧
        Follows env executors staticCall states₀ ctx₀ m' k' := fun hm htwin =>
    ⟨_, hm, htwin, Step.explained hd hm h.explained⟩
  cases hstep with
  | @visit n rest hphase htodo =>
      have hphase' : m.phase = .batching := h.twin.phase.trans hphase
      obtain ⟨states, ctx, hdistinct, hmid⟩ := h.explained.facts hd hphase'
      have htwins := h.twin.stop.todo
      rw [htodo] at htwins
      obtain ⟨a, rest', -, -, htodo'⟩ := List.forall₂_cons_right_iff.mp htwins
      exact hfollow (.visit hphase' htodo') (h.twin.visit (hmid.facts hdistinct) htodo' htodo)
  | allSended hphase htodo =>
      exact hfollow (.allSended (h.twin.phase.trans hphase) (h.twin.todo_nil.mpr htodo))
        h.twin.setAllSended
  | check hphase htodo hall =>
      have hphase' : m.phase = .batching := h.twin.phase.trans hphase
      obtain ⟨states, ctx, hdistinct, hmid⟩ := h.explained.facts hd hphase'
      exact hfollow (.check hphase' (h.twin.todo_nil.mpr htodo) (h.twin.stop.log.status ▸ hall))
        (h.twin.checkBatch (hmid.facts hdistinct) _)
  | @reply d reply hphase hdisp hnew hreply =>
      have hphase' : m.phase = .batching := h.twin.phase.trans hphase
      obtain ⟨states, ctx, hdistinct, hmid⟩ := h.explained.facts hd hphase'
      rw [← h.twin.stop.log.dispatched] at hdisp
      rw [← h.twin.replied] at hnew
      rw [← h.twin.sentBefore] at hreply
      have hmid' := hmid.receive hdistinct hdisp hnew hreply
      exact hfollow (.reply hphase' hdisp hnew hreply)
        ((h.twin.receive hdisp reply).checkBatch (hmid'.facts hdistinct) _)
  | hash hphase hanswer =>
      rw [← h.twin.sentBefore] at hanswer
      exact hfollow (.hash (h.twin.phase.trans hphase) hanswer) (h.twin.hashDone _)

/-- **The runs follow each other.** -/
theorem twins_bisimulation (hd : DistinctContexts states₀) :
    Bisimulation (Machine.Step env staticCall executors) (Machine.Step env staticCall executors)
      (Follows env executors staticCall states₀ ctx₀) where
  forth := Follows.forth hd
  back := Follows.back hd

end BcosScheduler
