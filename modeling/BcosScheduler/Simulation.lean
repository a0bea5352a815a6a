/-
BcosScheduler/Simulation.lean

Every run of `DMTExecute` follows whole rounds.

`Reaches` are the states in which a batch starts, reached by rounds: send
everything, write the replies, end the batch.  In the middle of a batch the
machine stands at a stop of the sending traversal with some replies written
over it (`Mid`).  `Explained` says this for every phase of the machine and
`Steps.explained` that it holds in every run.
-/
import BcosScheduler.Round

namespace BcosScheduler

/-- The messages of the batches of a history. -/
def messagesOf (history : List BatchLog) : List (List ExecutionMessage) :=
  history.map fun b => b.dispatched.map Dispatch.message

/-- The states of the transactions finished so far. -/
def Machine.erasedStates (m : Machine) : List ExecutiveState :=
  m.history.flatMap BatchLog.erased ++ m.log.erased

/-- One reply of the executors to every message of a batch. -/
structure Answers (executors : Executors) (history : List BatchLog) (log : SendLog)
    (rs : List (ContextID × Reply)) : Prop where
  perm : (rs.map Prod.fst).Perm log.sentTo
  reply : ∀ p ∈ rs, ∃ d ∈ log.dispatched, d.contextID = p.1 ∧
    executors.reply (messagesOf history) d.message p.2

/-- The end of a batch after its replies. -/
def roundEnd (log : SendLog) (c : Cursor) (rs : List (ContextID × Reply)) : BatchEnd :=
  endBatch (log.seen rs true).status (c.visited.map (applyReplies rs)) log.ctx.keyLocks

/-- The states, members and history with which batches start.  No batch is run
on an empty map, except the first one. -/
inductive Reaches (env : BlockEnv) (executors : Executors) (states₀ : List Node)
    (ctx₀ : SendContext) : List Node → SendContext → List BatchLog → Prop
  | start : Reaches env executors states₀ ctx₀ states₀ ctx₀ []
  | next {states states' : List Node} {ctx : SendContext} {history : List BatchLog}
      {log : SendLog} {c : Cursor} {rs : List (ContextID × Reply)} {keyLocks : GraphKeyLocks}
      {victims : List ContextID} :
      Reaches env executors states₀ ctx₀ states ctx history → (states = [] → history = []) →
      sendAll env states ctx = .ok (log, c) → Answers executors history log rs →
      roundEnd log c rs = .next states' keyLocks victims →
      Reaches env executors states₀ ctx₀ states' { log.ctx with keyLocks := keyLocks }
        (history ++ [⟨log.dispatched, log.erased, victims⟩])

/-- In the middle of a batch that started with `states` and `ctx`. -/
structure Mid (env : BlockEnv) (executors : Executors) (states : List Node) (ctx : SendContext)
    (m : Machine) : Prop where
  path : ∃ log visited allSended,
    SendReach env states ctx log { m.cursor with visited := visited } m.todo ∧
    m.cursor.visited = visited.map (applyReplies m.replied) ∧
    m.log = log.seen m.replied allSended ∧ (allSended = true → m.todo = [])
  repliedNodup : (m.replied.map Prod.fst).Nodup
  replies : ∀ p ∈ m.replied, ∃ d ∈ m.log.dispatched, d.contextID = p.1 ∧
    executors.reply (messagesOf m.history) d.message p.2
  receipts : m.receipts = []

/-- No state is left and at least one batch was run. -/
def Emptied (env : BlockEnv) (executors : Executors) (states₀ : List Node) (ctx₀ : SendContext)
    (ctx : SendContext) (m : Machine) : Prop :=
  Reaches env executors states₀ ctx₀ [] ctx m.history ∧ m.history ≠ [] ∧ m.states = [] ∧
    m.log = { ctx := { ctx with calledContract := [] } }

/-- The sending traversal failed at a stop. -/
def SendFault (env : BlockEnv) (states : List Node) (ctx : SendContext) (log : SendLog)
    (f : Fault) : Prop :=
  ∃ c n rest, SendReach env states ctx log c (n :: rest) ∧
    traverseStep (sendCallback env) n rest log c = .error f

/-- How the machine came to be where it is. -/
def Explained (env : BlockEnv) (executors : Executors) (staticCall : Bool) (states₀ : List Node)
    (ctx₀ : SendContext) (m : Machine) : Prop :=
  match m.phase with
  | .batching => ∃ states ctx, Reaches env executors states₀ ctx₀ states ctx m.history ∧
      (states = [] → m.history = []) ∧ Mid env executors states ctx m
  | .hashing => staticCall = false ∧ m.receipts = [] ∧
      ∃ ctx, Emptied env executors states₀ ctx₀ ctx m
  | .finished (.success header) => ∃ ctx, Emptied env executors states₀ ctx₀ ctx m ∧
      m.receipts = ctx.executiveResults.map ExecutiveResult.receipt ∧
      ((staticCall = true ∧ header = none) ∨
        staticCall = false ∧ ∃ hash, executors.hash (messagesOf m.history) (.ok hash) ∧
          header = some ⟨env.number, hash, ctx.gasUsed⟩)
  | .finished (.error e) => m.receipts = [] ∧
      ((∃ states ctx log c rs, Reaches env executors states₀ ctx₀ states ctx m.history ∧
          (states = [] → m.history = []) ∧ sendAll env states ctx = .ok (log, c) ∧
          Answers executors m.history log rs ∧
          roundEnd log c rs = .error (SchedulerError.BatchError.error "Batch with errors") ∧
          m.log.ctx = log.ctx ∧ m.log.dispatched = log.dispatched ∧
          e = SchedulerError.DMTError.error "Execute with errors") ∨
        staticCall = false ∧ ∃ ctx e', Emptied env executors states₀ ctx₀ ctx m ∧
          executors.hash (messagesOf m.history) (.error e') ∧
          e = SchedulerError.UnknownError.error "Unknown error")
  | .finished (.fault f) => m.receipts = [] ∧ ∃ states ctx log,
      Reaches env executors states₀ ctx₀ states ctx m.history ∧
      (states = [] → m.history = []) ∧ m.log.ctx = log.ctx ∧ m.log.dispatched = log.dispatched ∧
      (SendFault env states ctx log f ∨ ∃ c rs, sendAll env states ctx = .ok (log, c) ∧
        Answers executors m.history log rs ∧ roundEnd log c rs = .fault f)

variable {env : BlockEnv} {executors : Executors} {staticCall : Bool} {states₀ states : List Node}
  {ctx₀ ctx : SendContext} {history : List BatchLog} {m m' : Machine}

/-! ### What a pass does with a state -/

/-- The deadlock pass clears a mark, turns a deadlocked state back and ends, or goes on. -/
theorem deadLockCallback_cases {s s' : PassContext} {state state' : ExecutiveState}
    {hint : TraverseHint} (h : deadLockCallback s state = .ok (hint, s', state')) :
    (hint = .SKIP ∧ s' = s ∧ state' = { state with skip := false }) ∨
    (∃ message, state.message = some message ∧ hint = .END ∧
      s' = { s with victims := s.victims ++ [state.contextID] } ∧
      state' = { state with message := some { message with type := .REVERT_KEY_LOCK } }) ∨
    hint = .PASS ∧ s' = s ∧ state' = state := by
  unfold deadLockCallback at h
  split_ifs at h
  · cases h
    exact Or.inl ⟨rfl, rfl, rfl⟩
  · split at h
    next => cases h
    next message hmsg =>
      cases h
      exact Or.inr (Or.inl ⟨message, hmsg, rfl, rfl, rfl⟩)
  · cases h
    exact Or.inr (Or.inr ⟨rfl, rfl, rfl⟩)

theorem deadLockCallback_error {s : PassContext} {state : ExecutiveState} {f : Fault}
    (h : deadLockCallback s state = .error f) : f = .nullMessage ∧ state.message = none := by
  unfold deadLockCallback at h
  split_ifs at h
  split at h
  next hmsg =>
    cases h
    exact ⟨rfl, hmsg⟩
  next => cases h

/-- The pass after replies clears marks and changes nothing else of a state; it turns
nobody back and erases nobody. -/
theorem keyLockCallback_keeps {s s' : PassContext} {state state' : ExecutiveState}
    {hint : TraverseHint} (h : keyLockCallback s state = .ok (hint, s', state')) :
    (∃ skip, state' = { state with skip := skip }) ∧ s'.victims = s.victims ∧ hint ≠ .DELETE := by
  unfold keyLockCallback at h
  split_ifs at h
  · cases h
    exact ⟨⟨false, rfl⟩, rfl, by simp⟩
  · repeat' split at h
    all_goals first
      | cases h
        done
      | cases h
        exact ⟨⟨state.skip, rfl⟩, rfl, by simp⟩

theorem deadLockCallback_updates : UpdatesMessages deadLockCallback := by
  intro s state s' state' h
  rcases deadLockCallback_cases h with ⟨hhint, -⟩ | ⟨-, -, hhint, -⟩ | ⟨hhint, -⟩
  · cases hhint
  · cases hhint
  · cases hhint

theorem keyLockCallback_updates : UpdatesMessages keyLockCallback := by
  intro s state s' state' h
  obtain ⟨⟨skip, rfl⟩, -⟩ := keyLockCallback_keeps h
  intro hnone
  have hmsg : state.message = none := hnone
  unfold keyLockCallback at h
  split_ifs at h
  · cases h
  · simp [hmsg] at h

/-- It fails on a state without message, and where `batchAcquireKeyLock` throws. -/
theorem keyLockCallback_error {s : PassContext} {state : ExecutiveState} {f : Fault}
    (h : keyLockCallback s state = .error f) :
    (f = .nullMessage ∧ state.message = none) ∨
    ∃ message e, state.message = some message ∧
      (message.type = .MESSAGE ∨ message.type = .KEY_LOCK) ∧
      s.keyLocks.batchAcquireKeyLock message.fromAddr message.keyLocks message.contextID
        message.seq = .error e ∧ f = .exception e := by
  unfold keyLockCallback at h
  split_ifs at h
  split at h
  next hmsg =>
    cases h
    exact Or.inl ⟨rfl, hmsg⟩
  next message hmsg =>
    split at h
    next htype =>
      split at h
      next e he =>
        cases h
        exact Or.inr ⟨message, e, hmsg, Or.inl htype, he, rfl⟩
      next => cases h
    next htype =>
      split at h
      next e he =>
        cases h
        exact Or.inr ⟨message, e, hmsg, Or.inr htype, he, rfl⟩
      next => cases h
    all_goals cases h

/-- On a state with a message it fails by a throw. -/
theorem keyLockCallback_throws {s : PassContext} {state : ExecutiveState} {f : Fault}
    (hmsg : state.message ≠ none) (h : keyLockCallback s state = .error f) :
    ∃ e, f = .exception e := by
  rcases keyLockCallback_error h with ⟨-, hnone⟩ | ⟨-, e, -, -, -, rfl⟩
  · exact absurd hnone hmsg
  · exact ⟨e, rfl⟩

theorem deadLockCallback_contextID {s s' : PassContext} {state state' : ExecutiveState}
    {hint : TraverseHint} (h : deadLockCallback s state = .ok (hint, s', state')) :
    state'.contextID = state.contextID ∧ hint ≠ .DELETE := by
  rcases deadLockCallback_cases h with ⟨rfl, -, rfl⟩ | ⟨-, -, rfl, -, rfl⟩ | ⟨rfl, -, rfl⟩ <;>
    exact ⟨rfl, by simp⟩

theorem keyLockCallback_contextID {s s' : PassContext} {state state' : ExecutiveState}
    {hint : TraverseHint} (h : keyLockCallback s state = .ok (hint, s', state')) :
    state'.contextID = state.contextID ∧ hint ≠ .DELETE := by
  obtain ⟨⟨skip, rfl⟩, -, hdel⟩ := keyLockCallback_keeps h
  exact ⟨rfl, hdel⟩

theorem keyLockCallback_message {s s' : PassContext} {state state' : ExecutiveState}
    {hint : TraverseHint} (h : keyLockCallback s state = .ok (hint, s', state')) :
    state'.message = state.message := by
  obtain ⟨⟨skip, rfl⟩, -⟩ := keyLockCallback_keeps h
  rfl

/-! ### Contexts of a round -/

theorem runPass_next_iff {callback : TraverseCallback PassContext} {states states' : List Node}
    {keyLocks keyLocks' : GraphKeyLocks} {victims : List ContextID} :
    runPass callback states keyLocks = .next states' keyLocks' victims ↔
      ∃ s, traverseExecutive callback states { keyLocks := keyLocks } = .ok (states', s) ∧
        keyLocks' = s.keyLocks ∧ victims = s.victims := by
  unfold runPass
  rcases traverseExecutive callback states { keyLocks := keyLocks } with f | ⟨states₁, s₁⟩
  · simp
  · simp only [BatchEnd.next.injEq, Except.ok.injEq, Prod.mk.injEq]
    constructor
    · rintro ⟨rfl, rfl, rfl⟩
      exact ⟨s₁, ⟨rfl, rfl⟩, rfl, rfl⟩
    · rintro ⟨s, ⟨rfl, rfl⟩, rfl, rfl⟩
      exact ⟨rfl, rfl, rfl⟩

theorem runPass_contexts {callback : TraverseCallback PassContext}
    (hcall : ∀ {s state hint s' state'}, callback s state = .ok (hint, s', state') →
      state'.contextID = state.contextID ∧ hint ≠ .DELETE)
    {states states' : List Node} {keyLocks keyLocks' : GraphKeyLocks} {victims : List ContextID}
    (hkeyed : KeyedByContext states) (hnodup : (contexts states).Nodup)
    (h : runPass callback states keyLocks = .next states' keyLocks' victims) :
    (contexts states').Perm (contexts states) ∧ KeyedByContext states' := by
  obtain ⟨s, hpass, -⟩ := runPass_next_iff.mp h
  exact traverseExecutive_contexts hcall hkeyed hnodup hpass

theorem endBatch_contexts {status : BatchStatus} {states states' : List Node}
    {keyLocks keyLocks' : GraphKeyLocks} {victims : List ContextID}
    (hkeyed : KeyedByContext states) (hnodup : (contexts states).Nodup)
    (h : endBatch status states keyLocks = .next states' keyLocks' victims) :
    (contexts states').Perm (contexts states) ∧ KeyedByContext states' := by
  unfold endBatch at h
  split_ifs at h
  · exact runPass_contexts deadLockCallback_contextID hkeyed hnodup h
  · exact runPass_contexts keyLockCallback_contextID hkeyed hnodup h

/-- What the callback of a pass keeps of every state, the pass keeps. -/
theorem runPass_states {callback : TraverseCallback PassContext} {P : ExecutiveState → Prop}
    (hcall : ∀ {s state hint s' state'}, P state → callback s state = .ok (hint, s', state') →
      P state')
    {states states' : List Node} {keyLocks keyLocks' : GraphKeyLocks} {victims : List ContextID}
    (hstates : ∀ n ∈ states, P n.2)
    (h : runPass callback states keyLocks = .next states' keyLocks' victims) :
    ∀ n ∈ states', P n.2 := by
  obtain ⟨s, hpass, -⟩ := runPass_next_iff.mp h
  exact traverseExecutive_states hcall hstates hpass

/-- A pass leaves the map in ascending order. -/
theorem runPass_ascending {callback : TraverseCallback PassContext}
    {states states' : List Node} {keyLocks keyLocks' : GraphKeyLocks} {victims : List ContextID}
    (hasc : OrderedMap.Ascending states)
    (h : runPass callback states keyLocks = .next states' keyLocks' victims) :
    OrderedMap.Ascending states' := by
  obtain ⟨s, hpass, -⟩ := runPass_next_iff.mp h
  exact traverseExecutive_ascending hasc hpass

/-- What the callback of a pass keeps of the locks, the pass keeps. -/
theorem runPass_keyLocks {callback : TraverseCallback PassContext} {P : GraphKeyLocks → Prop}
    (hcall : ∀ {s state hint s' state'}, P s.keyLocks → callback s state = .ok (hint, s', state') →
      P s'.keyLocks)
    {states states' : List Node} {keyLocks keyLocks' : GraphKeyLocks} {victims : List ContextID}
    (hkeyLocks : P keyLocks)
    (h : runPass callback states keyLocks = .next states' keyLocks' victims) : P keyLocks' := by
  obtain ⟨s, hpass, rfl, -⟩ := runPass_next_iff.mp h
  exact traverseExecutive_data (J := fun s => P s.keyLocks) hcall hkeyLocks hpass

/-- A pass that puts back nodes with a message only fails where its callback does,
on a node of the map. -/
theorem runPass_fault {callback : TraverseCallback PassContext}
    (hupdates : UpdatesMessages callback) {keyLocks : GraphKeyLocks} {f : Fault}
    (h : runPass callback states keyLocks = .fault f) :
    ∃ n ∈ states, ∃ s, callback s n.2 = .error f := by
  unfold runPass at h
  rw [traverseExecutive_eq hupdates] at h
  rcases hfrom : traverseFrom callback states { keyLocks := keyLocks } {} with f' | r
  · rw [hfrom] at h
    cases h
    exact traverseFrom_error hfrom
  · rw [hfrom] at h
    cases h

/-- The pass behind a batch that goes on. -/
theorem endBatch_next {status : BatchStatus} {states states' : List Node}
    {keyLocks keyLocks' : GraphKeyLocks} {victims : List ContextID}
    (h : endBatch status states keyLocks = .next states' keyLocks' victims) :
    status.error = 0 ∧
      ((status.total = 0 ∧
          runPass deadLockCallback states keyLocks = .next states' keyLocks' victims) ∨
        runPass keyLockCallback states keyLocks = .next states' keyLocks' victims) := by
  unfold endBatch at h
  split_ifs at h with herror htotal
  · exact ⟨by omega, Or.inl ⟨htotal.2, h⟩⟩
  · exact ⟨by omega, Or.inr h⟩

/-- The nodes of a list are filed under distinct contexts. -/
structure DistinctContexts (states : List Node) : Prop where
  keyed : KeyedByContext states
  nodup : (contexts states).Nodup

/-- The result of a whole sending traversal. -/
theorem sendReach_of_sendAll {log : SendLog} {c : Cursor}
    (h : sendAll env states ctx = .ok (log, c)) : SendReach env states ctx log c [] :=
  traverseFrom_induction (P := SendReach env states ctx) (fun hr hs => hr.step hs) .start h

theorem KeyedByContext.applyReplies {nodes : List Node} (h : KeyedByContext nodes)
    (rs : List (ContextID × Reply)) : KeyedByContext (nodes.map (applyReplies rs)) := by
  intro n hn
  obtain ⟨m, hm, rfl⟩ := List.mem_map.mp hn
  rw [(applyReplies_frame rs m).1, (applyReplies_frame rs m).2.contextID]
  exact h m hm

/-- Replies leave the contexts of the nodes of a batch distinct. -/
theorem SendShape.replied {log : SendLog} {c : Cursor} (h : SendShape states log c [])
    (hnodup : (contexts states).Nodup) (rs : List (ContextID × Reply)) :
    DistinctContexts (c.visited.map (applyReplies rs)) where
  keyed := KeyedByContext.applyReplies (by simpa using h.keyed) rs
  nodup := by
    rw [contexts_map_applyReplies]
    simpa [contexts] using h.nodup hnodup

/-- A round loses only the contexts it erases. -/
theorem round_contexts {states' : List Node} {log : SendLog} {c : Cursor}
    {rs : List (ContextID × Reply)} {keyLocks : GraphKeyLocks} {victims : List ContextID}
    (hd : DistinctContexts states) (hsend : sendAll env states ctx = .ok (log, c))
    (hend : roundEnd log c rs = .next states' keyLocks victims) :
    (contexts states' ++ log.erased.map ExecutiveState.contextID).Perm (contexts states) ∧
      DistinctContexts states' := by
  have hshape := (sendReach_of_sendAll hsend).shape hd.keyed hd.nodup
  have hperm := hshape.perm
  rw [List.append_nil] at hperm
  have hreplied := hshape.replied hd.nodup rs
  obtain ⟨hperm', hkeyed'⟩ := endBatch_contexts hreplied.keyed hreplied.nodup hend
  refine ⟨?_, hkeyed', hperm'.nodup_iff.mpr hreplied.nodup⟩
  rw [contexts_map_applyReplies] at hperm'
  exact (hperm'.append_right _).trans hperm

theorem Reaches.distinct (hd : DistinctContexts states₀)
    (h : Reaches env executors states₀ ctx₀ states ctx history) : DistinctContexts states := by
  induction h with
  | start => exact hd
  | next _ _ hsend _ hend ih => exact (round_contexts ih hsend hend).2

/-- Every transaction is either there or was erased in exactly one batch. -/
theorem Reaches.contexts_perm (hd : DistinctContexts states₀)
    (h : Reaches env executors states₀ ctx₀ states ctx history) :
    (contexts states ++ (history.flatMap BatchLog.erased).map ExecutiveState.contextID).Perm
      (contexts states₀) := by
  induction h with
  | start => simp
  | next hreach _ hsend _ hend ih =>
      have hround := (round_contexts (hreach.distinct hd) hsend hend).1
      refine List.Perm.trans ?_ ((hround.append_right _).trans ih)
      simp only [List.flatMap_append, List.flatMap_cons, List.flatMap_nil, List.append_nil,
        List.map_append, List.append_assoc]
      exact List.Perm.append_left _ List.perm_append_comm

/-! ### Steps in the middle of a batch -/

/-- Book-keeping of a batch. -/
structure BatchFacts (m : Machine) : Prop where
  nodup : (contexts m.cursor.visited ++ contexts m.todo).Nodup
  keyed : KeyedByContext m.states
  behind : ∀ d ∈ m.log.dispatched, d.contextID ∈ contexts m.cursor.visited
  total : m.log.status.total = m.log.dispatched.length
  ended : m.log.status.allSended = true → m.todo = []

theorem BatchFacts.distinct (h : BatchFacts m) : DistinctContexts m.states where
  keyed := h.keyed
  nodup := by
    rw [Machine.states, contexts_append]
    exact h.nodup

theorem Mid.facts (hm : Mid env executors states ctx m) (hd : DistinctContexts states) :
    BatchFacts m := by
  obtain ⟨log, visited, b, hreach, hvisited, hlog, hsent⟩ := hm.path
  have hshape := hreach.shape hd.keyed hd.nodup
  have hcontexts : contexts m.cursor.visited = contexts visited := by
    rw [hvisited, contexts_map_applyReplies]
  refine ⟨?_, fun n hn => ?_, fun d hdisp => ?_, ?_, fun hall => ?_⟩
  · rw [hcontexts]
    exact hshape.nodup hd.nodup
  · rcases List.mem_append.mp hn with hn | hn
    · rw [hvisited] at hn
      exact KeyedByContext.applyReplies
        (fun k hk => hshape.keyed k (List.mem_append_left _ hk)) m.replied n hn
    · exact hshape.keyed n (List.mem_append_right _ hn)
  · rw [hcontexts]
    rw [hlog] at hdisp
    exact hshape.sentVisited _ (List.mem_map.mpr ⟨d, hdisp, rfl⟩)
  · rw [hlog]
    exact hshape.total
  · rw [hlog] at hall
    rcases Bool.or_eq_true_iff.mp hall with hall | hall
    · exact (hshape.ended hall).1
    · exact hsent hall

/-- Who was replied to is behind the cursor. -/
theorem Mid.replied_visited (hm : Mid env executors states ctx m) {log : SendLog}
    {c : Cursor} {b : Bool} (hshape : SendShape states log c m.todo)
    (hlog : m.log = log.seen m.replied b) : ∀ i ∈ m.replied.map Prod.fst, i ∈ contexts c.visited := by
  intro i hi
  obtain ⟨p, hp, rfl⟩ := List.mem_map.mp hi
  obtain ⟨d, hd, hctx, -⟩ := hm.replies p hp
  rw [hlog] at hd
  rw [← hctx]
  exact hshape.sentVisited _ (List.mem_map.mpr ⟨d, hd, rfl⟩)

/-- A visit is a turn of the traversal, as if no reply had been written. -/
theorem Mid.visit (hd : DistinctContexts states) (hm : Mid env executors states ctx m)
    {n : Node} {rest : List Node} (htodo : m.todo = n :: rest) :
    (∃ f log, SendFault env states ctx log f ∧ m.log.ctx = log.ctx ∧
      m.log.dispatched = log.dispatched ∧
      m.visit env n rest = { m with phase := .finished (.fault f) }) ∨
    ∃ log c todo, m.visit env n rest = { m with todo := todo, cursor := c, log := log } ∧
      Mid env executors states ctx { m with todo := todo, cursor := c, log := log } := by
  obtain ⟨log, visited, b, hreach, hvisited, hlog, hsent⟩ := hm.path
  have hcursor : m.cursor
      = { { m.cursor with visited := visited } with visited := m.cursor.visited } := rfl
  rw [htodo] at hreach
  rcases ht : traverseStep (sendCallback env) n rest log { m.cursor with visited := visited }
    with f | ⟨log', c', rest'⟩
  · refine Or.inl ⟨f, log, ⟨_, n, rest, hreach, ht⟩, by rw [hlog]; rfl, by rw [hlog]; rfl, ?_⟩
    have hstep : traverseStep (sendCallback env) n rest m.log m.cursor = .error f := by
      rw [hlog, traverseStep_seen, hcursor, traverseStep_error_visited ht]
    simp only [Machine.visit, hstep]
  · obtain ⟨added, hadded, hframe⟩ := traverseStep_visited ht
    have hstep : traverseStep (sendCallback env) n rest m.log m.cursor
        = .ok (log'.seen m.replied b, { c' with visited := m.cursor.visited ++ added }, rest') := by
      rw [hlog, traverseStep_seen, hcursor, hframe m.cursor.visited]
    have hreach' := hreach.step ht
    have hshape := hreach.shape hd.keyed hd.nodup
    have hshape' := hreach'.shape hd.keyed hd.nodup
    -- the nodes just passed have no reply
    have hfresh : added.map (applyReplies m.replied) = added := by
      refine (List.map_congr_left fun k hk => ?_).trans (List.map_id _)
      apply applyReplies_of_notMem
      intro hi
      have hbehind := hm.replied_visited (htodo ▸ hshape) hlog _ hi
      have hnodup := (List.nodup_append.mp (hshape'.nodup hd.nodup)).1
      rw [hadded, contexts_append] at hnodup
      exact (List.nodup_append.mp hnodup).2.2 _ hbehind _ (List.mem_map.mpr ⟨k, hk, rfl⟩) rfl
    refine Or.inr ⟨log'.seen m.replied b, { c' with visited := m.cursor.visited ++ added }, rest',
      by simp only [Machine.visit, hstep], ?_, hm.repliedNodup, ?_, hm.receipts⟩
    · refine ⟨log', c'.visited, b, hreach', ?_, rfl, fun hb => ?_⟩
      · rw [hadded, List.map_append, hfresh, ← hvisited]
      · have := hsent hb
        rw [htodo] at this
        cases this
    · intro p hp
      obtain ⟨d, hdisp, hrest⟩ := hm.replies p hp
      refine ⟨d, ?_, hrest⟩
      rw [hlog] at hdisp
      show d ∈ log'.dispatched
      rcases sendStep_cases ht with ⟨-, rfl, -, -⟩ | ⟨-, hint, state, hsends, -⟩
      · exact hdisp
      · cases hsends
        case send => exact List.mem_append_left _ hdisp
        all_goals exact hdisp

/-- A reply is written over the nodes behind only. -/
theorem Mid.receive (hd : DistinctContexts states) (hm : Mid env executors states ctx m)
    {d : Dispatch} {r : Reply} (hmem : d ∈ m.log.dispatched)
    (hnew : d.contextID ∉ m.replied.map Prod.fst)
    (hr : executors.reply (messagesOf m.history) d.message r) :
    Mid env executors states ctx (m.receive d.contextID r) := by
  obtain ⟨log, visited, b, hreach, hvisited, hlog, hsent⟩ := hm.path
  have hshape := hreach.shape hd.keyed hd.nodup
  have hbehind : d.contextID ∈ contexts visited := by
    rw [hlog] at hmem
    exact hshape.sentVisited _ (List.mem_map.mpr ⟨d, hmem, rfl⟩)
  -- the receiver is behind the cursor and contexts are distinct
  have hahead : m.todo.map (Machine.storeAt d.contextID r) = m.todo := by
    refine (List.map_congr_left fun k hk => ?_).trans (List.map_id _)
    apply storeAt_of_ne
    intro heq
    exact (List.nodup_append.mp (hshape.nodup hd.nodup)).2.2 _ hbehind _
      (List.mem_map.mpr ⟨k, hk, heq⟩) rfl
  refine ⟨⟨log, visited, b, ?_, ?_, ?_, ?_⟩, ?_, ?_, hm.receipts⟩
  · simp only [Machine.receive, hahead]
    exact hreach
  · simp only [Machine.receive, hvisited, List.map_map]
    apply List.map_congr_left
    intro k _
    rw [Function.comp_apply, applyReplies_snoc]
  · simp only [Machine.receive, hlog, SendLog.seen, List.length_append, List.countP_append,
      List.length_cons, List.length_nil, List.countP_cons, List.countP_nil, Nat.zero_add,
      Nat.add_assoc]
  · intro hb
    simp only [Machine.receive, hahead]
    exact hsent hb
  · simp only [Machine.receive, List.map_append, List.map_cons, List.map_nil]
    exact List.Nodup.append hm.repliedNodup (List.nodup_singleton _) fun i hi hi' =>
      hnew (List.mem_singleton.mp hi' ▸ hi)
  · intro p hp
    rcases List.mem_append.mp hp with hp | hp
    · exact hm.replies p hp
    · rw [List.mem_singleton.mp hp]
      exact ⟨d, hmem, rfl, hr⟩

theorem Mid.setAllSended (hm : Mid env executors states ctx m) (htodo : m.todo = []) :
    Mid env executors states ctx m.setAllSended := by
  obtain ⟨log, visited, b, hreach, hvisited, hlog, hsent⟩ := hm.path
  refine ⟨⟨log, visited, true, hreach, hvisited, ?_, fun _ => htodo⟩, hm.repliedNodup,
    hm.replies, hm.receipts⟩
  simp [Machine.setAllSended, hlog, SendLog.seen]

/-! ### Completing a batch -/

theorem SendLog.seen_nil (log : SendLog) : log.seen [] false = log := by
  simp [SendLog.seen]

/-- A machine that starts a batch. -/
theorem Mid.start (states : List Node) (ctx : SendContext) (history : List BatchLog) :
    Mid env executors states ctx (Machine.startBatch states ctx history) where
  path := ⟨{ ctx := { ctx with calledContract := [] } }, [], false, .start, rfl,
    (SendLog.seen_nil _).symm, by simp⟩
  repliedNodup := List.nodup_nil
  replies := by simp [Machine.startBatch]
  receipts := rfl

theorem endBatch_error {status : BatchStatus} {keyLocks : GraphKeyLocks} {e : Error}
    (h : endBatch status states keyLocks = .error e) :
    e = SchedulerError.BatchError.error "Batch with errors" := by
  unfold endBatch runPass at h
  split_ifs at h
  · cases h
    rfl
  · split at h <;> cases h
  · split at h <;> cases h

/-- When everything is sent and received, a whole round lies behind. -/
theorem Mid.complete (hd : DistinctContexts states) (hm : Mid env executors states ctx m)
    (hall : m.log.status.allSended = true)
    (hreceived : m.log.status.received = m.log.status.total) :
    ∃ log c, sendAll env states ctx = .ok (log, c) ∧ Answers executors m.history log m.replied ∧
      endBatch m.log.status m.states m.log.ctx.keyLocks = roundEnd log c m.replied ∧
      m.states = c.visited.map (applyReplies m.replied) ∧ ∃ b, m.log = log.seen m.replied b := by
  obtain ⟨log, visited, b, hreach, hvisited, hlog, hsent⟩ := hm.path
  have hshape := hreach.shape hd.keyed hd.nodup
  -- `allSended` is set after the loop or by an error, which ends it
  have htodo : m.todo = [] := by
    rw [hlog] at hall
    rcases Bool.or_eq_true_iff.mp hall with ha | hb
    · exact (hshape.ended ha).1
    · exact hsent hb
  -- as many replies as messages, from distinct receivers: one for each of them
  have hlen : m.replied.length = log.sentTo.length := by
    simp only [hlog, SendLog.seen, hshape.received, hshape.total, Nat.zero_add] at hreceived
    rw [hreceived, SendLog.sentTo, List.length_map]
  refine ⟨log, { m.cursor with visited := visited }, ?_, ⟨?_, ?_⟩, ?_⟩
  · rw [hreach.sendAll_eq, htodo]
    rfl
  · have hsub : m.replied.map Prod.fst ⊆ log.sentTo := by
      intro i hi
      obtain ⟨p, hp, rfl⟩ := List.mem_map.mp hi
      obtain ⟨d, hdisp, hctx, -⟩ := hm.replies p hp
      rw [hlog] at hdisp
      exact List.mem_map.mpr ⟨d, hdisp, hctx⟩
    apply List.Subperm.perm_of_length_le (List.subperm_of_subset hm.repliedNodup hsub)
    rw [List.length_map]
    exact hlen.ge
  · intro p hp
    obtain ⟨d, hdisp, hrest⟩ := hm.replies p hp
    rw [hlog] at hdisp
    exact ⟨d, hdisp, hrest⟩
  · have hstates : m.states = visited.map (applyReplies m.replied) := by
      rw [Machine.states, htodo, List.append_nil, hvisited]
    refine ⟨?_, hstates, b, hlog⟩
    rw [hstates, hlog]
    rfl

theorem explained_batching (hphase : m.phase = .batching)
    (hreach : Reaches env executors states₀ ctx₀ states ctx m.history)
    (hfirst : states = [] → m.history = []) (hm : Mid env executors states ctx m) :
    Explained env executors staticCall states₀ ctx₀ m := by
  unfold Explained
  rw [hphase]
  exact ⟨states, ctx, hreach, hfirst, hm⟩

theorem explained_checkBatch (hd : DistinctContexts states)
    (hreach : Reaches env executors states₀ ctx₀ states ctx m.history)
    (hfirst : states = [] → m.history = []) (hphase : m.phase = .batching)
    (hm : Mid env executors states ctx m) :
    Explained env executors staticCall states₀ ctx₀ (m.checkBatch staticCall) := by
  unfold Machine.checkBatch
  split_ifs with hcond
  · obtain ⟨log, c, hsend, hanswers, hend, -, b, hlog⟩ := hm.complete hd hcond.1 hcond.2.1
    have hctx : m.log.ctx = log.ctx := by rw [hlog]; rfl
    have hdisp : m.log.dispatched = log.dispatched := by rw [hlog]; rfl
    have herased : m.log.erased = log.erased := by rw [hlog]; rfl
    rw [hend]
    rcases hround : roundEnd log c m.replied with e | f | ⟨states', keyLocks, victims⟩
    · refine ⟨hm.receipts, Or.inl ⟨states, ctx, log, c, m.replied, hreach, hfirst, hsend, hanswers,
        ?_, hctx, hdisp, rfl⟩⟩
      rw [hround, endBatch_error hround]
    · exact ⟨hm.receipts, states, ctx, log, hreach, hfirst, hctx, hdisp,
        Or.inr ⟨c, m.replied, hsend, hanswers, hround⟩⟩
    · have hnext := hreach.next hfirst hsend hanswers hround
      simp only [Machine.afterBatch]
      rw [hctx, hdisp, herased]
      split_ifs with hempty
      · have hnil : states' = [] := by simpa using hempty
        subst hnil
        unfold Machine.finish
        split_ifs with hstatic
        · exact ⟨_, ⟨hnext, by simp [Machine.startBatch], rfl, rfl⟩, rfl, Or.inl ⟨hstatic, rfl⟩⟩
        · exact ⟨by simpa using hstatic, rfl, _, hnext, by simp [Machine.startBatch], rfl, rfl⟩
      · exact ⟨_, _, hnext, fun hnil => absurd (by simp [hnil]) hempty, Mid.start _ _ _⟩
  · exact explained_batching hphase hreach hfirst hm

theorem Step.explained (hd : DistinctContexts states₀)
    (hstep : Machine.Step env staticCall executors m m')
    (h : Explained env executors staticCall states₀ ctx₀ m) :
    Explained env executors staticCall states₀ ctx₀ m' := by
  unfold Explained at h
  cases hstep with
  | @visit n rest hphase htodo =>
      rw [hphase] at h
      obtain ⟨states, ctx, hreach, hfirst, hm⟩ := h
      rcases hm.visit (hreach.distinct hd) htodo with
        ⟨f, log, hfault, hctx, hdisp, heq⟩ | ⟨log, c, todo, heq, hm'⟩
      · rw [heq]
        exact ⟨hm.receipts, states, ctx, log, hreach, hfirst, hctx, hdisp, Or.inl hfault⟩
      · rw [heq]
        exact explained_batching hphase hreach hfirst hm'
  | allSended hphase htodo =>
      rw [hphase] at h
      obtain ⟨states, ctx, hreach, hfirst, hm⟩ := h
      exact explained_batching hphase hreach hfirst (hm.setAllSended htodo)
  | check hphase htodo hall =>
      rw [hphase] at h
      obtain ⟨states, ctx, hreach, hfirst, hm⟩ := h
      exact explained_checkBatch (hreach.distinct hd) hreach hfirst hphase hm
  | @reply d r hphase hmem hnew hr =>
      rw [hphase] at h
      obtain ⟨states, ctx, hreach, hfirst, hm⟩ := h
      have hdist := hreach.distinct hd
      exact explained_checkBatch hdist hreach hfirst hphase (hm.receive hdist hmem hnew hr)
  | @hash answer hphase hanswer =>
      rw [hphase] at h
      obtain ⟨hstatic, hreceipts, ctx, hempty⟩ := h
      rcases answer with e | hash
      · exact ⟨hreceipts, Or.inr ⟨hstatic, ctx, e, hempty, hanswer, rfl⟩⟩
      · have hlog := hempty.2.2.2
        refine ⟨ctx, hempty, ?_, Or.inr ⟨hstatic, hash, hanswer, ?_⟩⟩
        · simp [Machine.hashDone, hreceipts, hlog]
        · rw [hlog]

/-- **Every run follows rounds.** -/
theorem Steps.explained (hd : DistinctContexts states₀)
    (h : Machine.Steps env staticCall executors (Machine.startBatch states₀ ctx₀ []) m) :
    Explained env executors staticCall states₀ ctx₀ m := by
  induction h with
  | refl => exact ⟨states₀, ctx₀, .start, fun _ => rfl, Mid.start _ _ _⟩
  | tail _ hstep ih => exact Step.explained hd hstep ih

theorem Explained.batching (h : Explained env executors staticCall states₀ ctx₀ m)
    (hphase : m.phase = .batching) :
    ∃ states ctx, Reaches env executors states₀ ctx₀ states ctx m.history ∧
      (states = [] → m.history = []) ∧ Mid env executors states ctx m := by
  rwa [Explained, hphase] at h

/-- In the middle of a batch its contexts are distinct. -/
theorem Explained.facts (hd : DistinctContexts states₀)
    (h : Explained env executors staticCall states₀ ctx₀ m) (hphase : m.phase = .batching) :
    ∃ states ctx, DistinctContexts states ∧ Mid env executors states ctx m := by
  obtain ⟨states, ctx, hreach, -, hm⟩ := h.batching hphase
  exact ⟨states, ctx, hreach.distinct hd, hm⟩

/-- The completed batches of a machine are rounds. -/
theorem Explained.reaches (h : Explained env executors staticCall states₀ ctx₀ m) :
    ∃ states ctx, Reaches env executors states₀ ctx₀ states ctx m.history := by
  unfold Explained at h
  rcases hphase : m.phase with _ | _ | (e | header | f)
  · rw [hphase] at h
    obtain ⟨states, ctx, hreach, -⟩ := h
    exact ⟨states, ctx, hreach⟩
  · rw [hphase] at h
    obtain ⟨-, -, ctx, hempty⟩ := h
    exact ⟨[], ctx, hempty.1⟩
  · rw [hphase] at h
    obtain ⟨-, ⟨states, ctx, -, -, -, hreach, -⟩ | ⟨-, ctx, -, hempty, -⟩⟩ := h
    · exact ⟨states, ctx, hreach⟩
    · exact ⟨[], ctx, hempty.1⟩
  · rw [hphase] at h
    obtain ⟨ctx, hempty, -⟩ := h
    exact ⟨[], ctx, hempty.1⟩
  · rw [hphase] at h
    obtain ⟨-, states, ctx, -, hreach, -⟩ := h
    exact ⟨states, ctx, hreach⟩

/-- Wherever a machine stands, its messages and locks are those of a stop of the sending
traversal of a batch. -/
theorem Explained.stop (h : Explained env executors staticCall states₀ ctx₀ m) :
    ∃ states ctx log c todo, Reaches env executors states₀ ctx₀ states ctx m.history ∧
      SendReach env states ctx log c todo ∧ m.log.ctx = log.ctx ∧
      m.log.dispatched = log.dispatched := by
  have hempty : ∀ {ctx}, Emptied env executors states₀ ctx₀ ctx m →
      ∃ states ctx log c todo, Reaches env executors states₀ ctx₀ states ctx m.history ∧
        SendReach env states ctx log c todo ∧ m.log.ctx = log.ctx ∧
        m.log.dispatched = log.dispatched := by
    rintro ctx ⟨hreach, -, -, hlog⟩
    exact ⟨[], ctx, _, {}, [], hreach, .start, congrArg SendLog.ctx hlog,
      congrArg SendLog.dispatched hlog⟩
  unfold Explained at h
  rcases hphase : m.phase with _ | _ | (e | header | f)
  · rw [hphase] at h
    obtain ⟨states, ctx, hreach, -, hm⟩ := h
    obtain ⟨log, visited, b, hsend, -, hlog, -⟩ := hm.path
    exact ⟨states, ctx, log, _, _, hreach, hsend, by rw [hlog]; rfl, by rw [hlog]; rfl⟩
  · rw [hphase] at h
    obtain ⟨-, -, ctx, hm⟩ := h
    exact hempty hm
  · rw [hphase] at h
    obtain ⟨-, ⟨states, ctx, log, c, rs, hreach, -, hsend, -, -, hctx, hdisp, -⟩ |
      ⟨-, ctx, -, hm, -⟩⟩ := h
    · exact ⟨states, ctx, log, c, [], hreach, sendReach_of_sendAll hsend, hctx, hdisp⟩
    · exact hempty hm
  · rw [hphase] at h
    obtain ⟨ctx, hm, -⟩ := h
    exact hempty hm
  · rw [hphase] at h
    obtain ⟨-, states, ctx, log, hreach, -, hctx, hdisp, ⟨c, n, rest, hsend, -⟩ |
      ⟨c, rs, hsend, -⟩⟩ := h
    · exact ⟨states, ctx, log, c, _, hreach, hsend, hctx, hdisp⟩
    · exact ⟨states, ctx, log, c, [], hreach, sendReach_of_sendAll hsend, hctx, hdisp⟩

end BcosScheduler
